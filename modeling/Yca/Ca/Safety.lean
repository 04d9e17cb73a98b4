import Yca.Ca.Contract

/-!
# The commands keep their contracts

Every script of `Ca.Commands` is safe: whatever other processes do between two
of its steps, each event it emits meets its contract.  One rule for each kind of
step, and one lemma for each command.
-/

namespace Yca
namespace Ca

open Yca.Core

variable {r : Rules} {p : Pid} {s : Store}

/-- A command keeps its contracts from here on. -/
abbrev Safe (r : Rules) (p : Pid) (c : Command) (s : Store) : Prop :=
  (discipline r).Safe machine p c s

section Rules

theorem safe_halt :
    Safe r p .halt s := by
  trivial

/-- Interference before a command starts does not matter. -/
theorem Safe.later
    {c : Command}
    {t : Store}
    (h : Safe r p c s)
    (ht : Interference r p s t) :
    Safe r p c t :=
  Discipline.Safe.stable (discipline_sound r) h ht

theorem safe_look
    {next : Choice → Store → Command}
    (h : ∀ t k, Interference r p s t → Safe r p (next k t) t) :
    Safe r p (look next) s := by
  intro t k ht _ _ _
  exact ⟨trivial, h t k ht⟩

/-- After `begin_write` the process holds the lock. -/
theorem safe_beginWrite
    {next : Command}
    (h : ∀ t, Interference r p s t → t.lock = some p → Safe r p next t) :
    Safe r p (beginWrite next) s := by
  intro t k ht _ hready _
  have hfree : t.lock = none := by simpa using hready
  refine ⟨hfree, h _ ?_ rfl⟩
  refine ht.trans ⟨Nat.le_refl _, fun e he => mem_apply_log p .begin t he, Db.Extends.refl _, ?_,
    fun _ _ => rfl, fun _ _ _ => rfl⟩
  intro hlock
  simp [hfree] at hlock

theorem safe_abort (hlock : s.lock = some p) :
    Safe r p abort s := by
  intro t k ht _ _ _
  exact ⟨(ht.locked hlock).1, trivial⟩

/-- A transaction commits under the lock, on the database as it was. -/
theorem safe_commitWrite
    {tx : Store → Tx}
    (hlock : s.lock = some p)
    (h : ∀ t, Interference r p s t → t.db = s.db → TxMeets r t (tx t)) :
    Safe r p (commitWrite tx) s := by
  intro t k ht _ _ _
  obtain ⟨hlock', hdb⟩ := ht.locked hlock
  refine ⟨?_, trivial⟩
  show Meets r p t (if ((tx t).run t.db).isSome = true then _ else _)
  split
  · rename_i hrun
    exact ⟨hlock', hrun, h t ht hdb⟩
  · exact hlock'

/-- What a key lookup does to the store is no more than interference. -/
theorem interference_key (use : KeyUse) (t : Store) :
    Interference r p t (t.apply p (.key use)) := by
  obtain ⟨hdb, hlock, hpem, hcrl⟩ := apply_key_db p use t
  refine Interference.ofFrame (by simp) (fun e he => mem_apply_log p _ t he) hdb ?_ hpem hcrl
  intro hp
  rw [hlock]
  exact hp

/-- A key lookup leaves its mark in the log. -/
theorem safe_emitting_key
    {α : Type}
    {found : Choice → Store → Option α}
    {use : α → KeyUse}
    {next : α → Command}
    (hfound : ∀ t k a, found k t = some a → KeyFound t (use a))
    (h : ∀ t k a t₀, found k t₀ = some a → Interference r p s t →
      Event.key (use a) ∈ t.log → Safe r p (next a) t) :
    Safe r p (emitting found (fun a => .key (use a)) next) s := by
  intro t k ht _ hready _
  obtain ⟨a, ha⟩ := Option.isSome_iff_exists.mp hready
  simp only [ha, Option.map_some, Option.getD_some]
  refine ⟨hfound t k a ha, h _ k a t ha (ht.trans (interference_key (use a) t)) ?_⟩
  exact mem_apply_self p (by simp) t

/-- After `ca_key` the key belongs to the certificate as far as the lookup
tells. -/
theorem safe_caKey
    {cert : Cert}
    {spec : CaSpec}
    {slug : String}
    {next : KeyPair → Command}
    (h : ∀ t pair, Interference r p s t → Signed t cert pair.priv → Safe r p (next pair) t) :
    Safe r p (caKey cert spec slug next) s := by
  refine safe_emitting_key ?_ ?_
  · intro t k pair hpair
    unfold KeyFound
    cases hb : spec.keyBackend with
    | internal =>
        simp only [hb, Option.map_eq_some_iff] at hpair ⊢
        obtain ⟨key, hkey, rfl⟩ := hpair
        exact hkey
    | pkcs11 =>
        simp only [hb] at hpair ⊢
        exact Option.join_eq_some_iff.mp hpair
  · intro t k pair _ _ ht hlog
    exact h t pair ht ⟨_, hlog, rfl, rfl⟩

theorem safe_tokenCaKey
    {holder : Option Cert}
    {spec : CaSpec}
    (hspec : spec.keyBackend = .pkcs11)
    {slug : String}
    {next : KeyPair → Command}
    (h : ∀ t pair generated, Interference r p s t →
      Event.key ⟨holder, spec, slug, pair, generated⟩ ∈ t.log → Safe r p (next pair) t) :
    Safe r p (tokenCaKey holder spec slug next) s := by
  refine safe_emitting_key ?_ ?_
  · intro t k found hfound
    split at hfound
    · simp at hfound
    · rename_i pair hpair
      rw [← Option.some.inj hfound]
      simp only [KeyFound, hspec]
      exact hpair
    · rw [← Option.some.inj hfound]
      simp [KeyFound, hspec]
  · intro t k found _ _ ht hlog
    exact h t found.1 found.2 ht hlog

/-- A new CA key: a pair kept in the store has matching halves. -/
theorem safe_makeCaKey
    {spec : CaSpec}
    {slug : String}
    {next : KeyPair → Command}
    (h : ∀ t pair generated, Interference r p s t →
      Event.key ⟨none, spec, slug, pair, generated⟩ ∈ t.log →
      (spec.keyBackend = .internal → pair.priv = pair.pub) → Safe r p (next pair) t) :
    Safe r p (makeCaKey spec slug next) s := by
  unfold makeCaKey
  split
  · rename_i hspec
    refine safe_tokenCaKey hspec ?_
    intro t pair generated ht hlog
    refine h t pair generated ht hlog ?_
    intro hint
    simp [hspec] at hint
  · rename_i hspec
    refine safe_emitting_key ?_ ?_
    · intro t k pair hpair
      rw [← Option.some.inj hpair]
      simp [KeyFound, hspec]
    · intro t k pair t₀ hpair ht hlog
      refine h t pair true ht hlog ?_
      intro _
      rw [← Option.some.inj hpair]

/-- Publishing an artifact is no more than interference where it is allowed. -/
theorem safe_publish
    {slug : String}
    {issuer : Cert}
    {file : Store → Artifact}
    {next : Command}
    (hceremony : r.ceremonies)
    (hmeets : ∀ t, Interference r p s t → PublishMeets t issuer (file t))
    (h : ∀ t, Interference r p s t → Safe r p next t) :
    Safe r p (publish slug issuer file next) s := by
  intro t k ht _ _ hallow
  refine ⟨⟨hceremony, hmeets t ht⟩, h _ (ht.trans ?_)⟩
  have hkeep : ∀ other, r.keep t.db other → other ≠ slug := by
    rintro other hother rfl
    exact hallow.1 hceremony hother
  refine ⟨?_, fun e he => mem_apply_log p _ t he, ?_, ?_, ?_, ?_⟩
  · exact Nat.le_of_eq (apply_now p _ t).symm
  · show t.db.Extends (t.apply p (.publish slug issuer (file t))).db
    cases file t <;> exact Db.Extends.refl _
  · intro hlock
    show (t.apply p (.publish slug issuer (file t))).lock = some p ∧
      (t.apply p (.publish slug issuer (file t))).db = t.db
    cases file t <;> exact ⟨hlock, rfl⟩
  · intro other hother
    show (t.apply p (.publish slug issuer (file t))).pem other = t.pem other
    cases file t with
    | pem cert => exact Function.update_of_ne (hkeep other hother) _ _
    | _ => rfl
  · intro other _ hother
    show (t.apply p (.publish slug issuer (file t))).crl other = t.crl other
    cases file t with
    | crl crl => exact Function.update_of_ne (hkeep other hother) _ _
    | _ => rfl

/-- A CRL is rewritten under the lock. -/
theorem safe_rewriteCrl
    {mayFail : Bool}
    {w : Store → Rewrite}
    {next : Command}
    (hmeets : ∀ t, Interference r p s t → RewriteMeets r p t (w t))
    (hkept : mayFail = true → ∀ t, Interference r p s t → Safe r p next t)
    (h : ∀ t, Interference r p s t → Safe r p next (t.apply p (.rewrite (w t)))) :
    Safe r p (rewriteCrl mayFail w next) s := by
  intro t k ht _ hready _
  cases hok : k.ok with
  | true =>
      simp only [hok, if_true]
      exact ⟨hmeets t ht, h t ht⟩
  | false =>
      simp only [hok, Bool.false_or] at hready
      simp only [hok, Bool.false_eq_true, if_false]
      exact ⟨trivial, hkept hready t ht⟩

end Rules

section Facts

theorem Signed.mono
    {t : Store}
    {issuer : Cert}
    {priv : Key}
    (h : Signed s issuer priv)
    (hlog : ∀ e ∈ s.log, e ∈ t.log) :
    Signed t issuer priv := by
  obtain ⟨use, hmem, hpriv, hholder⟩ := h
  exact ⟨use, hlog _ hmem, hpriv, hholder⟩

theorem mem_of_newest
    {α : Type}
    {key : α → Nat}
    {l : List α}
    {a : α}
    (h : newest key l = some a) :
    a ∈ l := by
  induction l generalizing a with
  | nil => simp [newest] at h
  | cons b l ih =>
      simp only [newest] at h
      split at h
      · rw [← Option.some.inj h]
        exact List.mem_cons_self
      · rename_i c hc
        split at h
        · rw [← Option.some.inj h]
          exact List.mem_cons_of_mem _ (ih hc)
        · rw [← Option.some.inj h]
          exact List.mem_cons_self

theorem newest_isSome
    {α : Type}
    (key : α → Nat)
    {l : List α}
    {a : α}
    (h : a ∈ l) :
    ∃ b, newest key l = some b := by
  cases l with
  | nil => simp at h
  | cons c l =>
      simp only [newest]
      split
      · exact ⟨_, rfl⟩
      · split <;> exact ⟨_, rfl⟩

/-- The newest is at least as new as any. -/
theorem le_newest
    {α : Type}
    {key : α → Nat}
    {l : List α}
    {a b : α}
    (h : newest key l = some b)
    (ha : a ∈ l) :
    key a ≤ key b := by
  induction l generalizing b with
  | nil => simp at ha
  | cons c l ih =>
      simp only [newest] at h
      split at h
      · rename_i hnone
        obtain rfl := Option.some.inj h
        rcases List.mem_cons.mp ha with rfl | hmem
        · exact Nat.le_refl _
        · obtain ⟨d, hd⟩ := newest_isSome key hmem
          rw [hnone] at hd
          simp at hd
      · rename_i d hd
        split at h
        · rename_i hlt
          obtain rfl := Option.some.inj h
          rcases List.mem_cons.mp ha with rfl | hmem
          · exact Nat.le_of_lt hlt
          · exact ih hd hmem
        · rename_i hnot
          obtain rfl := Option.some.inj h
          rcases List.mem_cons.mp ha with rfl | hmem
          · exact Nat.le_refl _
          · have hle := ih hd hmem
            omega

/-- A row of a leaf's kind is the row of a leaf. -/
theorem isLeaf_of_kind
    {row : CertRow}
    {profile : Profile}
    (h : row.kind = .ee profile) :
    row.isLeaf = true := by
  simp [CertRow.isLeaf, h]

theorem leaf_of_activeFp
    {db : Db}
    {cn : String}
    {profile : Profile}
    {now : Nat}
    {fp : Cert}
    (h : activeFp db cn (.ee profile) now = some fp) :
    ∃ row ∈ db.certIndex, row.isLeaf = true ∧ row.fingerprint = fp := by
  obtain ⟨row, hrow, hfp⟩ := Option.map_eq_some_iff.mp h
  have hmem := mem_of_newest hrow
  simp only [List.mem_filter, Bool.and_eq_true, beq_iff_eq] at hmem
  obtain ⟨hindex, ⟨⟨_, hkind⟩, _⟩, _⟩ := hmem
  exact ⟨row, hindex, isLeaf_of_kind hkind, hfp⟩

theorem leaf_of_activeFpBySerial
    {db : Db}
    {serial : String}
    {profile : Profile}
    {now : Nat}
    {fp : Cert}
    (h : activeFpBySerial db serial (.ee profile) now = some fp) :
    ∃ row ∈ db.certIndex, row.isLeaf = true ∧ row.fingerprint = fp := by
  obtain ⟨row, hrow, hfp⟩ := Option.map_eq_some_iff.mp h
  have hfound := List.find?_some hrow
  simp only [Bool.and_eq_true, beq_iff_eq] at hfound
  obtain ⟨⟨⟨_, hkind⟩, _⟩, _⟩ := hfound
  exact ⟨row, List.mem_of_find?_eq_some hrow, isLeaf_of_kind hkind, hfp⟩

/-- As time passes a row stops blocking, and never starts to. -/
theorem CertRow.blocks_mono
    {row : CertRow}
    {cn : String}
    {kind : Kind}
    {now later : Nat}
    (hle : now ≤ later)
    (h : row.blocks cn kind later = true) :
    row.blocks cn kind now = true := by
  simp only [CertRow.blocks, Bool.and_eq_true, decide_eq_true_eq] at h ⊢
  obtain ⟨⟨hrow, hlater⟩, hwindow⟩ := h
  refine ⟨⟨hrow, by omega⟩, ?_⟩
  have hsub : (row.notAfter - later) * 100 ≤ (row.notAfter - now) * 100 := by omega
  omega

theorem blockingDuplicate_mono
    {db : Db}
    {cn : String}
    {kind : Kind}
    {now later : Nat}
    (hle : now ≤ later)
    (h : blockingDuplicate db cn kind now = false) :
    blockingDuplicate db cn kind later = false := by
  simp only [blockingDuplicate, List.any_eq_false] at h ⊢
  intro row hrow hblocks
  exact h row hrow (CertRow.blocks_mono hle hblocks)

/-- A generation found by name is recorded. -/
theorem recorded_of_genByCn
    {db : Db}
    {kind : CaKind}
    {cn : String}
    {g : CaGen}
    (h : genByCn db kind cn = some g) :
    db.Recorded g.slug := by
  simp only [genByCn, Option.map_eq_some_iff] at h
  obtain ⟨row, hrow, rfl⟩ := h
  exact ⟨row, List.mem_of_find?_eq_some hrow, rfl⟩

/-- A certificate that was loaded is the one asked for. -/
theorem loadCert_eq
    {db : Db}
    {fp cert : Cert}
    (h : loadCert db fp = some cert) :
    cert = fp := by
  simp only [loadCert, Option.map_eq_some_iff] at h
  obtain ⟨row, hrow, rfl⟩ := h
  simpa using List.find?_some hrow

/-- A certificate that is stored can be loaded. -/
theorem loadCert_of_stored
    {db : Db}
    {stored : StoredCert}
    (h : stored ∈ db.certificates) :
    loadCert db stored.cert = some stored.cert := by
  cases hload : loadCert db stored.cert with
  | none =>
      have hno := List.find?_eq_none.mp (Option.map_eq_none_iff.mp hload) stored h
      simp at hno
  | some cert => rw [loadCert_eq hload]

end Facts

section Shared

theorem safe_ensureCaIndexLoop
    {config : Config}
    {next : Command}
    {purposes : List String}
    (h : ∀ t, Interference r p s t → Safe r p next t) :
    Safe r p (ensureCaIndexLoop config next purposes) s := by
  induction purposes generalizing s with
  | nil => exact h s (Interference.refl s)
  | cons purpose rest ih =>
      have hrest : ∀ t, Interference r p s t →
          Safe r p (ensureCaIndexLoop config next rest) t := by
        intro t ht
        refine ih ?_
        intro u hu
        exact h u (ht.trans hu)
      refine safe_look ?_
      intro t _ ht
      split
      · exact hrest t ht
      · refine safe_look ?_
        intro u _ hu
        split
        · -- The backfilled row: an autocommitted insert, with the lock free.
          intro v k hv _ hready _
          simp only [Bool.and_eq_true, Option.isNone_iff_eq_none, Bool.not_eq_true'] at hready
          obtain ⟨hfree, hnew⟩ := hready
          have hgrow : Interference r p v (v.apply p (.backfill ⟨configGen config purpose,
              kindOf purpose, .active⟩)) := by
            refine ⟨Nat.le_refl _, fun e he => mem_apply_log p _ v he, ?_, ?_,
              fun _ _ => rfl, fun _ _ _ => rfl⟩
            · intro row hrow
              exact ⟨row, List.mem_append_left _ hrow, rfl, rfl⟩
            · intro hlock
              simp [hfree] at hlock
          have hpurpose : (configGen config purpose).purpose = purpose := by
            unfold configGen
            split
            · rename_i hroot
              exact hroot.symm
            · split <;> rfl
          refine ⟨⟨hfree, ?_⟩, hrest _ (ht.trans (hu.trans (hv.trans hgrow)))⟩
          simpa [hpurpose] using hnew
        · exact hrest u (ht.trans hu)

theorem safe_ensureCaIndex
    {config : Config}
    {next : Command}
    (h : ∀ t, Interference r p s t → Safe r p next t) :
    Safe r p (ensureCaIndex config next) s :=
  safe_ensureCaIndexLoop h

theorem safe_unlessCnTaken
    {root : CaGen}
    {cn : String}
    {next : Command}
    (h : ∀ t, Interference r p s t → Safe r p next t) :
    Safe r p (unlessCnTaken root cn next) s := by
  unfold unlessCnTaken
  split
  · exact safe_halt
  · refine safe_look ?_
    intro t _ ht
    split
    · exact safe_halt
    · refine safe_look ?_
      intro u _ hu
      split
      · exact safe_halt
      · exact h u (ht.trans hu)

theorem safe_ceremonyRootKey
    {config : Config}
    {rootCert : Cert}
    {slug : String}
    {next : KeyPair → Command}
    (h : ∀ t pair, Interference r p s t → Signed t rootCert pair.priv → Safe r p (next pair) t) :
    Safe r p (ceremonyRootKey config rootCert slug next) s := by
  unfold ceremonyRootKey
  split
  · rename_i hbackend
    refine safe_tokenCaKey hbackend ?_
    intro t pair generated ht hlog
    exact h t pair ht ⟨_, hlog, rfl, rfl⟩
  · exact safe_caKey h

/-- The ceremony hands over a certificate with the generation's name, and a key
whose public half is in it. -/
theorem safe_mintCaGeneration
    {config : Config}
    {ca : SigningCa}
    {root gen : CaGen}
    {next : Cert → KeyPair → Command}
    (hceremony : r.ceremonies)
    (h : ∀ t cert pair, Interference r p s t →
      cert.subjectCn = gen.cn →
      cert.publicKey = pair.pub →
      (ca.keyBackend = .internal → pair.priv = pair.pub) →
      Safe r p (next cert pair) t) :
    Safe r p (mintCaGeneration config ca root gen next) s := by
  refine safe_look ?_
  intro t₁ _ h₁
  split
  · exact safe_halt
  · rename_i rootCert _
    refine safe_look ?_
    intro t₂ _ h₂
    split
    · exact safe_halt
    · refine safe_ceremonyRootKey ?_
      intro t₃ rootKey h₃ hroot
      refine safe_makeCaKey ?_
      intro t₄ pair generated h₄ hkey hpair
      refine safe_look ?_
      intro t₅ k h₅
      have hsigned : ∀ t, Interference r p t₅ t → Signed t rootCert rootKey.priv := by
        intro t ht
        exact hroot.mono (h₄.trans (h₅.trans ht)).log
      refine safe_publish hceremony ?_ ?_
      · intro t ht
        exact hsigned t ht
      · intro t₆ h₆
        refine safe_publish hceremony ?_ ?_
        · intro t ht
          exact hsigned t (h₆.trans ht)
        · intro t₇ h₇
          refine safe_publish hceremony ?_ ?_
          · intro t ht
            have hlog := (h₅.trans (h₆.trans (h₇.trans ht))).log _ hkey
            exact ⟨⟨_, hlog, rfl, rfl, rfl⟩, rfl⟩
          · intro t₈ h₈
            refine h t₈ _ pair ?_ rfl rfl hpair
            exact h₁.trans (h₂.trans (h₃.trans (h₄.trans (h₅.trans (h₆.trans (h₇.trans h₈))))))

theorem safe_checkNonce
    {enrolled : Option (String × String)}
    {refused next : Command}
    (hrefused : ∀ t, Interference r p s t → Safe r p refused t)
    (h : ∀ t, Interference r p s t → Safe r p next t) :
    Safe r p (checkNonce enrolled refused next) s := by
  unfold checkNonce
  split
  · exact h s (Interference.refl s)
  · refine safe_look ?_
    intro t _ ht
    split
    · exact hrefused t ht
    · exact h t ht

theorem safe_checkDuplicate
    {cn : String}
    {profile : Profile}
    {refused next : Command}
    (hrefused : ∀ t, Interference r p s t → Safe r p refused t)
    (h : ∀ t, Interference r p s t →
      blockingDuplicate t.db cn (.ee profile) t.now = false → Safe r p next t) :
    Safe r p (checkDuplicate cn profile refused next) s := by
  refine safe_look ?_
  intro t _ ht
  split
  · exact hrefused t ht
  · rename_i hdup
    exact h t ht (by simpa using hdup)

/-- A leaf is issued only when nothing blocks it under the lock. -/
theorem safe_issue
    (hissue : r.issuance)
    (config : Config)
    (ca : SigningCa)
    (profile : Profile)
    (cn : String)
    (validity : Nat)
    (csrKey : Option Key)
    (enrolled : Option (String × String)) :
    Safe r p (issue config ca profile cn validity csrKey enrolled) s := by
  refine safe_look ?_
  intro t₁ _ h₁
  refine safe_look ?_
  intro t₂ _ h₂
  split
  · exact safe_halt
  · rename_i signCert _
    refine safe_look ?_
    intro t₃ _ h₃
    split
    · exact safe_halt
    · refine safe_checkNonce (fun _ _ => safe_halt) ?_
      intro t₄ h₄
      refine safe_checkDuplicate (fun _ _ => safe_halt) ?_
      intro t₅ h₅ _
      refine safe_caKey ?_
      intro t₆ key h₆ hsigned
      refine safe_beginWrite ?_
      intro t₇ h₇ hlock₇
      refine safe_checkNonce ?_ ?_
      · intro t ht
        exact safe_abort (ht.locked hlock₇).1
      · intro t₈ h₈
        have hlock₈ := (h₈.locked hlock₇).1
        refine safe_checkDuplicate ?_ ?_
        · intro t ht
          exact safe_abort (ht.locked hlock₈).1
        · intro t₉ h₉ hfree
          have hlock₉ := (h₉.locked hlock₈).1
          refine safe_look ?_
          intro t k ht
          obtain ⟨hlock, hdb⟩ := ht.locked hlock₉
          refine safe_commitWrite hlock ?_
          intro u hu hudb
          refine ⟨hissue, ?_, hu.now, Nat.le_add_right _ _, rfl, ?_⟩
          · rw [hudb, hdb]
            exact blockingDuplicate_mono (Nat.le_trans ht.now hu.now) hfree
          · exact hsigned.mono (h₇.trans (h₈.trans (h₉.trans (ht.trans hu)))).log

end Shared

section Revocation

/-- The rewriting of a CRL read under the lock. -/
theorem rewriteMeets
    {t : Store}
    {slug : String}
    {signer : Cert}
    {prev : Crl}
    {key : KeyPair}
    (added : Option Cert)
    (reason : Reason)
    {horizon : Nat}
    (hlock : s.lock = some p)
    (hprev : s.crl slug = some prev)
    (hsigned : Signed s signer key.priv)
    (ht : Interference r p s t) :
    RewriteMeets r p t
      ⟨slug, signer, prev, added,
        nextCrl t.db prev signer key (added.map fun c => ⟨c.serial, reason⟩) horizon t.now⟩ where
  lock := (ht.locked hlock).1
  prev hkeep := by
    -- The database did not move under the lock, so the slug was kept before.
    rw [(ht.locked hlock).2] at hkeep
    rw [ht.crl slug hlock hkeep, hprev]
  entries := ⟨reason, rfl⟩
  number := rfl
  thisUpdate := rfl
  signed := hsigned.mono ht.log

theorem safe_revokeLocked
    {lookup : Store → Option Cert}
    {sign : CaGen}
    {signCert : Cert}
    {key : KeyPair}
    {reason : Reason}
    (hlookup : ∀ t fp, lookup t = some fp →
      ∃ row ∈ t.db.certIndex, row.isLeaf = true ∧ row.fingerprint = fp)
    (hlock : s.lock = some p)
    (hrec : s.db.Recorded sign.slug)
    (hpem : r.Protects → s.pem sign.slug = some signCert)
    (hsigned : Signed s signCert key.priv) :
    Safe r p (revoke.revokeLocked lookup sign signCert key reason) s := by
  refine safe_look ?_
  intro t₁ _ h₁
  have hlock₁ := (h₁.locked hlock).1
  split
  · exact safe_abort hlock₁
  · rename_i prev hprev
    refine safe_look ?_
    intro t₂ _ h₂
    have hlock₂ := (h₂.locked hlock₁).1
    split
    · exact safe_abort hlock₂
    · rename_i cert hcert
      obtain ⟨fp, hfp, hload⟩ := Option.bind_eq_some_iff.mp hcert
      have hleaf := hlookup t₂ fp hfp
      rw [← loadCert_eq hload] at hleaf
      refine safe_rewriteCrl ?_ (by simp) ?_
      · intro t ht
        exact rewriteMeets (some _) reason hlock₁ hprev (hsigned.mono h₁.log) (h₂.trans ht)
      · intro t ht
        have ht₀ : Interference r p s t := h₁.trans (h₂.trans ht)
        have hlock₃ := (ht₀.locked hlock).1
        refine safe_commitWrite hlock₃ ?_
        intro u hu hudb
        refine ⟨?_, _, hu.log _ (mem_apply_self p (by simp) t), rfl, ?_, ?_, ?_⟩
        · rw [hudb]
          show ∃ row ∈ t.db.certIndex, row.isLeaf = true ∧ row.fingerprint = cert
          rw [(ht.locked hlock₂).2]
          exact hleaf
        · exact hu.rows.recorded (ht₀.rows.recorded hrec)
        · intro hprot
          have hkeep : r.keep t.db sign.slug := hprot _ _ (ht₀.rows.recorded hrec)
          constructor
          · rw [hu.pem sign.slug hkeep]
            show t.pem sign.slug = some signCert
            rw [ht₀.pem sign.slug (hprot _ _ hrec)]
            exact hpem hprot
          · rw [hu.crl sign.slug hlock₃ hkeep]
            exact Function.update_self _ _ _
        · exact ⟨reason, by simp [nextCrl]⟩

theorem safe_revoke
    (config : Config)
    (target : Profile)
    (cn serial : String)
    (reason : Reason) :
    Safe r p (revoke config target cn serial reason) s := by
  refine safe_look ?_
  intro t₁ _ h₁
  split
  · exact safe_halt
  · refine safe_look ?_
    intro t₂ _ h₂
    split
    · exact safe_halt
    · refine safe_look ?_
      intro t₃ _ h₃
      split
      · exact safe_halt
      · rename_i sign hsign
        have hrec := recorded_of_genByCn hsign
        split
        · exact safe_halt
        · refine safe_look ?_
          intro t₄ _ h₄
          split
          · exact safe_halt
          · rename_i signCert hpem
            have hrec₄ := h₄.rows.recorded hrec
            refine safe_look ?_
            intro t₅ _ h₅
            split
            · exact safe_halt
            · refine safe_caKey ?_
              intro t₆ key h₆ hsigned
              refine safe_beginWrite ?_
              intro t₇ h₇ hlock
              have h₇' : Interference r p t₄ t₇ := h₅.trans (h₆.trans h₇)
              refine safe_revokeLocked ?_ hlock (h₇'.rows.recorded hrec₄) ?_ (hsigned.mono h₇.log)
              · intro t fp hfp
                split at hfp
                · exact leaf_of_activeFp hfp
                · exact leaf_of_activeFpBySerial hfp
              · intro hprot
                rw [h₇'.pem _ (hprot _ _ hrec₄), hpem]

theorem safe_resolveCaCn
    {config : Config}
    {selector : String}
    {next : String → Command}
    (h : ∀ t cn, Interference r p s t → Safe r p (next cn) t) :
    Safe r p (resolveCaCn config selector next) s := by
  unfold resolveCaCn
  simp only
  split
  · exact safe_look fun t _ ht => h t _ ht
  · split
    · exact safe_look fun t _ ht => h t _ ht
    · split
      · split
        · exact safe_look fun t _ ht => h t _ ht
        · exact safe_halt
      · exact h s _ (Interference.refl s)

theorem safe_revokeCaLocked
    (hrevoke : r.caRevocation)
    {root victim : CaGen}
    {rootCert victimCert : Cert}
    {key : KeyPair}
    {reason : Reason}
    (hlock : s.lock = some p)
    (hsigned : Signed s rootCert key.priv) :
    Safe r p (revokeCa.revokeCaLocked root rootCert victim victimCert key reason) s := by
  refine safe_look ?_
  intro t₁ _ h₁
  have hlock₁ := (h₁.locked hlock).1
  split
  · exact safe_abort hlock₁
  · rename_i prev hprev
    refine safe_rewriteCrl ?_ (by simp) ?_
    · intro t ht
      have hsigned₁ : Signed t₁ rootCert key.priv := hsigned.mono h₁.log
      exact rewriteMeets (some victimCert) reason hlock₁ hprev hsigned₁ ht
    · intro t ht
      refine safe_commitWrite (ht.locked hlock₁).1 ?_
      intro u _ _
      exact hrevoke

theorem safe_revokeCa
    (hrevoke : r.caRevocation)
    (config : Config)
    (selector : String)
    (reason : Reason) :
    Safe r p (revokeCa config selector reason) s := by
  refine safe_ensureCaIndex ?_
  intro t₁ _
  refine safe_look ?_
  intro t₂ _ _
  dsimp only
  split
  · exact safe_halt
  · refine safe_resolveCaCn ?_
    intro t₃ cn _
    split
    · exact safe_halt
    · refine safe_look ?_
      intro t₄ _ _
      split
      · exact safe_halt
      · refine safe_look ?_
        intro t₅ _ _
        split
        · exact safe_halt
        · refine safe_look ?_
          intro t₆ _ _
          split
          · exact safe_halt
          · refine safe_look ?_
            intro t₇ _ _
            split
            · exact safe_halt
            · refine safe_look ?_
              intro t₈ _ _
              split
              · exact safe_halt
              · refine safe_look ?_
                intro t₉ _ _
                split
                · exact safe_halt
                · refine safe_caKey ?_
                  intro u key _ hsigned
                  refine safe_beginWrite ?_
                  intro v hv hlock
                  exact safe_revokeCaLocked hrevoke hlock (hsigned.mono hv.log)

theorem safe_collectJobs
    {config : Config}
    {kind : CaKind}
    {horizon now : Nat}
    {next : List Job → Command}
    {gens : List CaGen}
    {jobs : List Job}
    (h : ∀ t jobs, Interference r p s t → Safe r p (next jobs) t) :
    Safe r p (collectJobs config kind horizon now next gens jobs) s := by
  induction gens generalizing s jobs with
  | nil => exact h s jobs (Interference.refl s)
  | cons g rest ih =>
      have hrest : ∀ t jobs, Interference r p s t →
          Safe r p (collectJobs config kind horizon now next rest jobs) t := by
        intro t jobs ht
        refine ih ?_
        intro u jobs hu
        exact h u jobs (ht.trans hu)
      unfold collectJobs
      split
      · exact safe_halt
      · refine safe_look ?_
        intro t _ ht
        split
        · exact safe_halt
        · refine safe_look ?_
          intro u _ hu
          split
          · exact safe_halt
          · split
            · exact hrest u _ (ht.trans hu)
            · exact hrest u _ (ht.trans hu)

/-- Every loaded key belongs to the certificate of its job as far as the lookup
tells. -/
def Keyed (s : Store) (keyed : List (Job × KeyPair)) : Prop :=
  ∀ jk ∈ keyed, Signed s jk.1.cert jk.2.priv

theorem Keyed.mono
    {t : Store}
    {keyed : List (Job × KeyPair)}
    (h : Keyed s keyed)
    (hlog : ∀ e ∈ s.log, e ∈ t.log) :
    Keyed t keyed := by
  intro jk hjk
  exact (h jk hjk).mono hlog

theorem safe_loadKeys
    {next : List (Job × KeyPair) → Command}
    {jobs : List Job}
    {keyed : List (Job × KeyPair)}
    (hkeyed : Keyed s keyed)
    (h : ∀ t keyed, Interference r p s t → Keyed t keyed → Safe r p (next keyed) t) :
    Safe r p (loadKeys next jobs keyed) s := by
  induction jobs generalizing s keyed with
  | nil => exact h s keyed (Interference.refl s) hkeyed
  | cons j rest ih =>
      refine safe_caKey ?_
      intro t pair ht hsigned
      refine ih ?_ ?_
      · intro jk hjk
        rcases List.mem_append.mp hjk with hold | hnew
        · exact (hkeyed jk hold).mono ht.log
        · have hjk : jk = (j, pair) := by simpa using hnew
          subst hjk
          exact hsigned
      · intro u keyed hu hkeyed
        exact h u keyed (ht.trans hu) hkeyed

theorem safe_refreshJobs
    {next : Command}
    {keyed : List (Job × KeyPair)}
    (hlock : s.lock = some p)
    (hkeyed : Keyed s keyed)
    (h : ∀ t, t.lock = some p → Safe r p next t) :
    Safe r p (refreshJobs next keyed) s := by
  induction keyed generalizing s with
  | nil => exact h s hlock
  | cons jk rest ih =>
      have hrest : Keyed s rest := fun jk hjk => hkeyed jk (List.mem_cons_of_mem _ hjk)
      refine safe_look ?_
      intro t₁ _ h₁
      have hlock₁ := (h₁.locked hlock).1
      split
      · exact safe_abort hlock₁
      · rename_i prev hprev
        refine safe_rewriteCrl ?_ ?_ ?_
        · intro t ht
          have hsigned := (hkeyed jk List.mem_cons_self).mono h₁.log
          exact rewriteMeets none .unspecified hlock₁ hprev hsigned ht
        · intro _ t ht
          exact ih (ht.locked hlock₁).1 (hrest.mono (h₁.trans ht).log)
        · intro t ht
          refine ih (ht.locked hlock₁).1 (hrest.mono ?_)
          intro e he
          exact mem_apply_log p _ t ((h₁.trans ht).log e he)

theorem safe_refreshCrl
    (config : Config)
    (scope : CrlScope) :
    Safe r p (refreshCrl config scope) s := by
  have hscope : ∀ (now : Nat) (kind : CaKind) (wanted : Bool) (jobs : List Job)
      (next : List Job → Command) (s : Store),
      (∀ t jobs, Interference r p s t → Safe r p (next jobs) t) →
      Safe r p (refreshCrl.collectScope config now kind wanted jobs next) s := by
    intro now kind wanted jobs next s h
    unfold refreshCrl.collectScope
    split
    · refine safe_look ?_
      intro t _ ht
      refine safe_collectJobs ?_
      intro u jobs hu
      exact h u jobs (ht.trans hu)
    · exact h s jobs (Interference.refl s)
  refine safe_look ?_
  intro t₁ _ _
  refine hscope _ _ _ _ _ _ ?_
  intro t₂ jobs₂ _
  refine hscope _ _ _ _ _ _ ?_
  intro t₃ jobs₃ _
  split
  · exact safe_halt
  · refine safe_loadKeys (fun _ h => by simp at h) ?_
    intro t₄ keyed _ hkeyed
    refine safe_beginWrite ?_
    intro t₅ h₅ hlock
    refine safe_refreshJobs hlock (hkeyed.mono h₅.log) ?_
    intro t₆ hlock₆
    refine safe_commitWrite hlock₆ ?_
    intro u _ _
    trivial

end Revocation

section Ceremonies

/-- What a ceremony's key and certificate promise its transaction. -/
theorem generation_meets
    (hceremony : r.ceremonies)
    {t : Store}
    {ca : SigningCa}
    {gen : CaGen}
    {cert : Cert}
    {key : KeyPair}
    {lock : Option SigningCa}
    (hcn : cert.subjectCn = gen.cn)
    (hpub : cert.publicKey = key.pub)
    (hpair : ca.keyBackend = .internal → key.priv = key.pub) :
    TxMeets r t (.generation gen cert (persisted ca key) lock) := by
  refine ⟨hceremony, hcn, ?_⟩
  intro k hk
  unfold persisted at hk
  split at hk
  · rename_i hbackend
    rw [← Option.some.inj hk, hpub, hpair hbackend]
  · simp at hk

theorem safe_addSigningCa
    (hceremony : r.ceremonies)
    (config : Config)
    (purpose : String) :
    Safe r p (addSigningCa config purpose) s := by
  unfold addSigningCa
  split
  · exact safe_halt
  · refine safe_ensureCaIndex ?_
    intro t₁ _
    refine safe_look ?_
    intro t₂ _ _
    split
    · exact safe_halt
    · refine safe_look ?_
      intro t₃ _ _
      refine safe_unlessCnTaken ?_
      intro t₄ _
      refine safe_mintCaGeneration hceremony ?_
      intro t₅ cert key _ hcn hpub hpair
      refine safe_beginWrite ?_
      intro t₆ _ hlock
      refine safe_commitWrite hlock ?_
      intro u _ _
      exact generation_meets hceremony hcn hpub hpair

theorem safe_renewSigningCa
    (hceremony : r.ceremonies)
    (config : Config)
    (purpose newCn : String) :
    Safe r p (renewSigningCa config purpose newCn) s := by
  unfold renewSigningCa
  split
  · exact safe_halt
  · split
    · exact safe_halt
    · refine safe_ensureCaIndex ?_
      intro t₁ _
      refine safe_look ?_
      intro t₂ _ _
      refine safe_look ?_
      intro t₃ _ _
      refine safe_unlessCnTaken ?_
      intro t₄ _
      refine safe_mintCaGeneration hceremony ?_
      intro t₅ cert key _ hcn hpub hpair
      refine safe_beginWrite ?_
      intro t₆ _ hlock
      refine safe_commitWrite hlock ?_
      intro u _ _
      exact generation_meets hceremony hcn hpub hpair

end Ceremonies

section Enrollment

theorem safe_enroll (id : String) :
    Safe r p (enroll id) s := by
  unfold enroll
  split
  · exact safe_halt
  · refine safe_beginWrite ?_
    intro t₁ _ hlock₁
    refine safe_look ?_
    intro t₂ _ h₂
    have hlock₂ := (h₂.locked hlock₁).1
    split
    · exact safe_abort hlock₂
    · exact safe_commitWrite hlock₂ fun _ _ _ => trivial

theorem safe_getNonce (id : String) :
    Safe r p (getNonce id) s := by
  refine safe_beginWrite ?_
  intro t₁ _ hlock₁
  refine safe_look ?_
  intro t₂ _ h₂
  have hlock₂ := (h₂.locked hlock₁).1
  split
  · exact safe_abort hlock₂
  · refine safe_look ?_
    intro t₃ _ h₃
    have hlock₃ := (h₃.locked hlock₂).1
    split
    · exact safe_commitWrite hlock₃ fun _ _ _ => trivial
    · exact safe_commitWrite hlock₃ fun _ _ _ => trivial

end Enrollment

/-- Every command keeps its contracts. -/
theorem safe_start
    {req : Request}
    (hreq : r.Admits req)
    (p : Pid)
    (s : Store) :
    Safe r p (start req) s := by
  refine safe_look ?_
  intro t _ _
  cases req with
  | issueEe profile cn valid =>
      simp only [Request.run]
      split
      · exact safe_halt
      · split
        · exact safe_halt
        · split
          · exact safe_halt
          · exact safe_issue hreq _ _ _ _ _ _ _
  | signCsr profile id nonce cn csrKey valid =>
      simp only [Request.run]
      split
      · exact safe_halt
      · split
        · exact safe_halt
        · exact safe_issue hreq _ _ _ _ _ _ _
  | revoke target cn serial reason =>
      simp only [Request.run]
      split
      · exact safe_halt
      · exact safe_revoke _ _ _ _ _
  | revokeCa selector reason =>
      simp only [Request.run]
      split
      · exact safe_halt
      · exact safe_revokeCa hreq _ _ _
  | refreshCrl scope => exact safe_refreshCrl _ _
  | addSigningCa file purpose => exact safe_addSigningCa hreq _ _
  | renewSigningCa purpose newCn => exact safe_renewSigningCa hreq _ _ _
  | enroll id => exact safe_enroll id
  | getNonce id => exact safe_getNonce id

section Runs

/-- Any interleaving of the admitted commands. -/
def commands (admits : Request → Prop) : yca.Guarded
  | _, .spawn _ req => admits req
  | _, _ => True

instance
    (admits : Request → Prop)
    [DecidablePred admits]
    (w : World Store Command)
    (a : Action Choice Request Outside) :
    Decidable (commands admits w a) :=
  match a with
  | .spawn _ req => inferInstanceAs (Decidable (admits req))
  | .act _ _ => inferInstanceAs (Decidable True)
  | .crash _ => inferInstanceAs (Decidable True)
  | .env _ => inferInstanceAs (Decidable True)

/-- The interleavings of the admitted commands whose events the rules allow. -/
abbrev Rules.runs (r : Rules) (admits : Request → Prop) : yca.Guarded :=
  machine.policy start admits r.allow

variable {init : Store → Prop} {admits : Request → Prop}

/-- Rules that allow every event do not restrict the interleavings. -/
theorem Rules.runs_of_commands
    {r : Rules}
    (hallow : ∀ p s e, r.allow p s e)
    {w : World Store Command}
    {a : Action Choice Request Outside}
    (h : commands admits w a) :
    r.runs admits w a := by
  cases a with
  | spawn p req => exact h
  | act p k =>
      intro l _ e _
      exact hallow p w.shared e
  | crash p => trivial
  | env o => trivial

/-- What one step of an interleaving does to the store. -/
theorem moves_of_exec
    {r : Rules}
    (hadmits : ∀ req, admits req → r.Admits req)
    {w w' : World Store Command}
    {a : Action Choice Request Outside}
    (hw : (yca.system init).Reachable (r.runs admits) w)
    (hG : r.runs admits w a)
    (hx : yca.exec w a = some w') :
    (discipline r).Moves machine w.shared w'.shared :=
  Discipline.moves_of_exec (discipline_sound r) (fun _ _ => trivial)
    (fun req hreq p s _ => safe_start (hadmits req hreq) p s) hw hG hx

/-- What holds at the start and is kept by every contract holds of every
reachable store. -/
theorem holds_of_reachable
    {r : Rules}
    (hadmits : ∀ req, admits req → r.Admits req)
    {P : Store → Prop}
    (hinit : ∀ s, init s → P s)
    (hmoves : ∀ s s', P s → (discipline r).Moves machine s s' → P s')
    {w : World Store Command}
    (hw : (yca.system init).Reachable (r.runs admits) w) :
    P w.shared :=
  Discipline.keeps (discipline_sound r) (fun _ _ => trivial)
    (fun req hreq p s _ => safe_start (hadmits req hreq) p s) hinit
    (fun s s' _ _ hs hmove => hmoves s s' hs hmove) hw

/-- The moves, event by event. -/
theorem keeps_of_events
    {r : Rules}
    {P : Store → Prop}
    (hevent : ∀ s p e, P s → r.allow p s e → Meets r p s e → P (s.apply p e))
    (hframe : ∀ s s' : Store, P s → s'.db = s.db → s'.pem = s.pem → s'.crl = s.crl →
      s'.log = s.log → s.now ≤ s'.now → P s')
    {s s' : Store}
    (hs : P s)
    (hmove : (discipline r).Moves machine s s') :
    P s' := by
  cases hmove with
  | spawn => exact hs
  | event p e hallow hmeets => exact hevent s p e hs hallow hmeets
  | die p =>
      show P (s.die p)
      unfold Store.die
      split
      · exact hframe s _ hs rfl rfl rfl rfl (Nat.le_refl _)
      · exact hs
  | env o ho =>
      cases o with
      | tick seconds =>
          rw [← Option.some.inj ho]
          exact hframe s _ hs rfl rfl rfl rfl (Nat.le_add_right _ _)
      | token label objects =>
          rw [← Option.some.inj ho]
          exact hframe s _ hs rfl rfl rfl rfl (Nat.le_refl _)

end Runs

end Ca
end Yca
