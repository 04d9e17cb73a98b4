import Yca.Ca.Conduct

/-!
# One command at a time

Runs in which only one process is ever started.  Nothing changes under it but
the clock and the tokens, so what an account found at one moment still holds at
the next, and what the events keep, each with the account of its call, holds in
every state of the run.
-/

namespace Yca
namespace Ca

open Yca.Core

/-- What may change while nobody else works on the store. -/
structure Alone (s t : Store) : Prop where
  db : t.db = s.db
  lock : t.lock = s.lock
  pem : t.pem = s.pem
  crt : t.crt = s.crt
  crl : t.crl = s.crl
  log : t.log = s.log
  now : s.now ≤ t.now

/-- What happens under a process: much or, under the one process that runs,
next to nothing. -/
structure Undisturbed (r : Rules) (p : Pid) (s t : Store) : Prop where
  shared : Shared r p s t
  alone : p = 0 → Alone s t

/-- Only the one process that runs ever holds the lock. -/
structure Solo (inv : Store → Prop) (s : Store) : Prop where
  lock : s.lock = none ∨ s.lock = some 0
  inv : inv s

/-- One command at a time, with an invariant. -/
def Rules.oneByOne
    (r : Rules)
    (admits : Request → Prop)
    (inv : Store → Prop) : Conduct Store Event Request where
  inv := Solo inv
  Rely := Undisturbed r
  allow _ p s e := p = 0 ∧ r.allow p s e
  Meets req p s e :=
    admits req ∧ Meets r p s e ∧ Account (Undisturbed r) p (Solo inv) req s e

/-- The runs of one command at a time. -/
abbrev Rules.sequential (r : Rules) (admits : Request → Prop) : ycaCalls.Guarded :=
  machine.callPolicy start (fun p req => p = 0 ∧ admits req) fun _ p s e => p = 0 ∧ r.allow p s e

section Alone

theorem Alone.refl (s : Store) :
    Alone s s :=
  ⟨rfl, rfl, rfl, rfl, rfl, rfl, Nat.le_refl _⟩

theorem Alone.trans
    {s t u : Store}
    (h₁ : Alone s t)
    (h₂ : Alone t u) :
    Alone s u where
  db := h₂.db.trans h₁.db
  lock := h₂.lock.trans h₁.lock
  pem := h₂.pem.trans h₁.pem
  crt := h₂.crt.trans h₁.crt
  crl := h₂.crl.trans h₁.crl
  log := h₂.log.trans h₁.log
  now := Nat.le_trans h₁.now h₂.now

variable {r : Rules} {admits : Request → Prop} {inv : Store → Prop}

/-- The lock stays with the one process. -/
theorem lock_apply
    {s : Store}
    (h : s.lock = none ∨ s.lock = some 0)
    (e : Event) :
    (s.apply 0 e).lock = none ∨ (s.apply 0 e).lock = some 0 := by
  cases e with
  | begin => exact Or.inr rfl
  | rollback => exact Or.inl rfl
  | key use =>
      obtain ⟨_, hlock, _⟩ := apply_key_db 0 use s
      rw [hlock]
      exact h
  | publish slug issuer file => cases file <;> exact h
  | commit tx => exact Or.inl rfl
  | _ => exact h

/-- The death of another process changes nothing. -/
theorem die_other
    {s : Store}
    (h : s.lock = none ∨ s.lock = some 0)
    {p : Pid}
    (hp : p ≠ 0) :
    s.die p = s := by
  unfold Store.die
  split
  · rename_i hlock
    rw [hlock] at h
    rcases h with hnone | hzero
    · simp at hnone
    · exact absurd (Option.some.inj hzero) hp
  · rfl

theorem alone_outside
    {s s' : Store}
    {o : Outside}
    (h : s.outside o = some s') :
    Alone s s' := by
  cases o with
  | tick seconds =>
      rw [← Option.some.inj h]
      exact ⟨rfl, rfl, rfl, rfl, rfl, rfl, Nat.le_add_right _ _⟩
  | token label objects =>
      rw [← Option.some.inj h]
      exact ⟨rfl, rfl, rfl, rfl, rfl, rfl, Nat.le_refl _⟩

variable
  (hevent : ∀ s req e, inv s → admits req → r.allow 0 s e → Meets r 0 s e →
    Account (Undisturbed r) 0 (Solo inv) req s e → inv (s.apply 0 e))
  (hframe : ∀ s s' : Store, inv s → s'.db = s.db → s'.pem = s.pem → s'.crl = s.crl →
    s'.log = s.log → s.now ≤ s'.now → inv s')
include hevent hframe

/-- An invariant that every event of the one process keeps, given what the call
has seen. -/
theorem oneByOne_sound :
    (r.oneByOne admits inv).Sound machine where
  refl p s := ⟨(conduct_sound r).refl p s, fun _ => Alone.refl s⟩
  trans p _ _ _ h₁ h₂ :=
    ⟨(conduct_sound r).trans p _ _ _ h₁.shared h₂.shared,
      fun hp => (h₁.alone hp).trans (h₂.alone hp)⟩
  event req p s e hs hallow hmeets := by
    obtain ⟨rfl, hallow⟩ := hallow
    obtain ⟨hreq, hmeets, haccount⟩ := hmeets
    refine ⟨⟨lock_apply hs.lock e, hevent s req e hs.inv hreq hallow hmeets haccount⟩, ?_⟩
    intro q hq
    refine ⟨⟨interference_of_event hq hallow hmeets, grows_apply 0 s e⟩, ?_⟩
    intro hzero
    exact absurd hzero hq
  die p s hs := by
    obtain ⟨_, hrely⟩ := (conduct_sound r).die p s trivial
    constructor
    · show Solo inv (s.die p)
      unfold Store.die
      split
      · exact ⟨Or.inl rfl, hframe s _ hs.inv rfl rfl rfl rfl (Nat.le_refl _)⟩
      · exact hs
    · intro q hq
      refine ⟨hrely q hq, ?_⟩
      rintro rfl
      show Alone s (s.die p)
      rw [die_other hs.lock (Ne.symm hq)]
      exact Alone.refl s
  env x s s' hs hx := by
    have halone : Alone s s' := alone_outside hx
    obtain ⟨_, hrely⟩ := (conduct_sound r).env x s s' trivial hx
    refine ⟨⟨?_, ?_⟩, fun q => ⟨hrely q, fun _ => halone⟩⟩
    · rw [halone.lock]
      exact hs.lock
    · exact hframe s s' hs.inv halone.db halone.pem halone.crl halone.log halone.now

omit hevent hframe in
/-- Every command behaves. -/
theorem oneByOne_start
    {req : Request}
    (hadmits : admits req)
    (hreq : r.Admits req)
    (p : Pid)
    (s : Store) :
    ((r.oneByOne admits inv).of req).Safe machine p (start req) s := by
  have hsafe := Discipline.Safe.and
    (D := accounting (Solo inv) (Undisturbed r) ((r.oneByOne admits inv).allow req) req)
    (discipline r) (fun _ _ => trivial) (fun _ _ _ h => h.shared.others) (fun _ _ _ h => h.2)
    (accounts_start (Solo inv) (Undisturbed r) _ req p s) (safe_start hreq p s)
  exact hsafe.always fun _ _ _ => hadmits

variable
  {init : Store → Prop}
  (hadmits : ∀ req, admits req → r.Admits req)
  (hinit : ∀ s, init s → s.lock = none ∧ inv s)
include hadmits hinit

/-- The invariant holds in every reachable state. -/
theorem alone_inv
    {w : World Store (Request × Command)}
    (hw : (ycaCalls.system init).Reachable (r.sequential admits) w) :
    inv w.shared :=
  (Conduct.inv_of_reachable (C := r.oneByOne admits inv) (oneByOne_sound hevent hframe)
    (fun s hs => ⟨Or.inl (hinit s hs).1, (hinit s hs).2⟩)
    (fun _ p s h _ => oneByOne_start h.2 (hadmits _ h.2) p s) hw).inv

/-- What the call does in a step meets its contract and is accounted for. -/
theorem alone_emitted
    {w w' : World Store (Request × Command)}
    (hw : (ycaCalls.system init).Reachable (r.sequential admits) w)
    {p : Pid}
    {req : Request}
    {e : Event}
    (he : machine.Emits start (r.sequential admits) w p req e w') :
    p = 0 ∧
      admits req ∧
      r.allow 0 w.shared e ∧
      Meets r 0 w.shared e ∧
      Account (Undisturbed r) 0 (Solo inv) req w.shared e := by
  obtain ⟨⟨rfl, hallow⟩, hreq, hmeets, haccount⟩ :=
    Conduct.emitted (C := r.oneByOne admits inv) (oneByOne_sound hevent hframe)
      (fun s hs => ⟨Or.inl (hinit s hs).1, (hinit s hs).2⟩)
      (fun _ p s h _ => oneByOne_start h.2 (hadmits _ h.2) p s) hw he
  exact ⟨rfl, hreq, hallow, hmeets, haccount⟩

end Alone

section Same

variable {r : Rules} {s t : Store}

/-- Between two looks nothing has changed but the clock. -/
theorem Still.same
    (h : Still (Undisturbed r) 0 s t) :
    t.db = s.db ∧ t.pem = s.pem := by
  refine Machine.Since.induct (Q := fun u => u.db = s.db ∧ u.pem = s.pem) ?_ ?_ h ⟨rfl, rfl⟩
  · rintro u v ⟨hdb, hpem⟩ hv
    have halone := hv.alone rfl
    exact ⟨halone.db.trans hdb, halone.pem.trans hpem⟩
  · rintro u e ⟨hdb, hpem⟩ he
    cases e with
    | key use =>
        obtain ⟨hdb', _, hpem', _⟩ := apply_key_db 0 use u
        exact ⟨hdb'.trans hdb, hpem'.trans hpem⟩
    | publish slug issuer file =>
        cases file with
        | pem cert => simp [Event.still] at he
        | _ => exact ⟨hdb, hpem⟩
    | backfill row => simp [Event.still, Event.calm] at he
    | commit tx => simp [Event.still, Event.calm] at he
    | rollback => simp [Event.still, Event.calm] at he
    | _ => exact ⟨hdb, hpem⟩

/-- The database is as it was. -/
theorem Calm.same
    (h : Calm (Undisturbed r) 0 s t) :
    t.db = s.db := by
  refine Machine.Since.induct (Q := fun u => u.db = s.db) ?_ ?_ h rfl
  · intro u v hdb hv
    exact (hv.alone rfl).db.trans hdb
  · intro u e hdb he
    cases e with
    | key use => exact (apply_key_db 0 use u).1.trans hdb
    | publish slug issuer file => cases file <;> exact hdb
    | backfill row => simp [Event.calm] at he
    | commit tx => simp [Event.calm] at he
    | rollback => simp [Event.calm] at he
    | _ => exact hdb

/-- The database is as it was, but for first generations it may have gained. -/
theorem Mild.same
    (h : Mild (Undisturbed r) 0 s t) :
    ∃ rows, t.db = { s.db with caIndex := rows } := by
  refine Machine.Since.induct (Q := fun u => ∃ rows, u.db = { s.db with caIndex := rows }) ?_ ?_ h
    ⟨_, rfl⟩
  · rintro u v ⟨rows, hdb⟩ hv
    exact ⟨rows, (hv.alone rfl).db.trans hdb⟩
  · rintro u e ⟨rows, hdb⟩ he
    cases e with
    | key use => exact ⟨rows, (apply_key_db 0 use u).1.trans hdb⟩
    | publish slug issuer file => cases file <;> exact ⟨rows, hdb⟩
    | backfill row =>
        refine ⟨rows ++ [row], ?_⟩
        show { u.db with caIndex := u.db.caIndex ++ [row] } = _
        rw [hdb]
    | commit tx => simp [Event.mild, Event.calm] at he
    | rollback => simp [Event.mild, Event.calm] at he
    | _ => exact ⟨rows, hdb⟩

/-- The locked configuration is as it was. -/
theorem Mild.config
    (h : Mild (Undisturbed r) 0 s t) :
    t.db.loadConfig = s.db.loadConfig := by
  obtain ⟨rows, hdb⟩ := h.same
  rw [hdb]
  rfl

theorem Calm.config
    (h : Calm (Undisturbed r) 0 s t) :
    t.db.loadConfig = s.db.loadConfig := by
  rw [h.same]

theorem Mild.shared
    {p : Pid}
    (h : Mild (Undisturbed r) p s t) :
    Mild (Shared r) p s t :=
  Machine.Since.relax (fun _ _ h => h.shared) h

/-- What a lone ceremony has seen still holds when it acts on it. -/
theorem MintAccount.alone
    {at_ : MintTimes}
    {config : Config}
    {ca : SigningCa}
    {next : CaGen}
    {lock : Option SigningCa}
    {e : Event}
    (h : MintAccount (Undisturbed r) 0 at_ config ca next lock t e) :
    at_.root.db = t.db ∧
      at_.signing.db = t.db ∧
      (∀ kind, genByCn t.db kind next.cn = none) ∧
      ∃ root cert,
        cert.subjectCn = next.cn ∧
        cert.issuerCn = root.subjectCn ∧
        ((t.pem (activeCa t.db config "root").slug = some root ∧
            e = .publish next.slug root (.pem cert)) ∨
          ∃ key, t.pem next.slug = some cert ∧ (t.crl next.slug).isSome = true ∧
            e = .commit (.generation next cert key lock)) := by
  obtain ⟨root, cert, hcast, hcase⟩ := h
  obtain ⟨hsigning, hpemSigning⟩ := hcast.toSigning.same
  obtain ⟨hnamed, hpemNamed⟩ := hcast.toNamed.same
  obtain ⟨hanchor, hpemAnchor⟩ := hcast.toAnchor.same
  obtain ⟨hcheck, hpemCheck⟩ := hcast.toCheck.same
  obtain ⟨hdraw, hpemDraw⟩ := hcast.toDraw.same
  have hafter : t.db = at_.draw.db ∧
      ((t.pem (activeCa at_.root.db config "root").slug = some root ∧
          e = .publish next.slug root (.pem cert)) ∨
        ∃ key, t.pem next.slug = some cert ∧ (t.crl next.slug).isSome = true ∧
          e = .commit (.generation next cert key lock)) := by
    rcases hcase with ⟨hto, he⟩ | ⟨published, listed, key, hto, hpem, hto', hcrl, hto'', he⟩
    · obtain ⟨hdb, hpem⟩ := hto.same
      refine ⟨hdb, Or.inl ⟨?_, he⟩⟩
      rw [hpem, hpemDraw, hpemCheck]
      exact hcast.anchor
    · obtain ⟨hlisted, hpemListed⟩ := hto'.same
      obtain ⟨hdb, hpemLast⟩ := hto''.same
      refine ⟨(hdb.trans hlisted).trans hto.same, Or.inr ⟨key, ?_, ?_, he⟩⟩
      · rw [hpemLast, hpemListed]
        exact hpem
      · exact hto''.calm.mild.shared.grows.crl _ hcrl
  obtain ⟨hdb, hcase⟩ := hafter
  have hsigned : at_.signing.db = t.db := by
    rw [hdb, hdraw, hcheck, hanchor, hnamed]
  have hroot : at_.root.db = t.db := hsigning.symm.trans hsigned
  refine ⟨hroot, hsigned, ?_, root, cert, hcast.subject, hcast.issuerCn, ?_⟩
  · intro kind
    cases kind with
    | root =>
        rw [← hsigned, ← hnamed]
        exact hcast.freeRoot
    | signing =>
        rw [← hsigned]
        exact hcast.free
  · rw [← hroot]
    exact hcase

/-- The next generation of a lineage. -/
def Db.successor (db : Db) (ca : SigningCa) (newCn : String) : CaGen :=
  ⟨ca.purpose, (activeCa db db.loadConfig ca.purpose).gen + 1, newCn,
    ca.slugPrefix ++ toString ((activeCa db db.loadConfig ca.purpose).gen + 1)⟩

/-- The same for a renewal. -/
theorem RenewAccount.alone
    {purpose newCn : String}
    {e : Event}
    (h : RenewAccount (Undisturbed r) 0 purpose newCn s t e) :
    ∃ ca ∈ t.db.purposes,
      (∀ kind, genByCn t.db kind newCn = none) ∧
      ∃ root cert,
        cert.subjectCn = newCn ∧
        cert.issuerCn = root.subjectCn ∧
        ((t.pem (activeCa t.db t.db.loadConfig "root").slug = some root ∧
            e = .publish (t.db.successor ca newCn).slug root (.pem cert)) ∨
          ∃ key, t.pem (t.db.successor ca newCn).slug = some cert ∧
            (t.crl (t.db.successor ca newCn).slug).isSome = true ∧
            e = .commit (.generation (t.db.successor ca newCn) cert key none)) := by
  obtain ⟨at_, incumbent, ca, hca, hread, hto, hto', hmint⟩ := h
  have hpurpose : ca.purpose = purpose := by simpa using List.find?_some hca
  obtain ⟨hroot, hsigning, hfree, root, cert, hsubject, hissuer, hcase⟩ := hmint.alone
  have hincumbent : incumbent.db = t.db := hto'.same.1.symm.trans hsigning
  have hconfig : s.db.loadConfig = t.db.loadConfig := by
    rw [← hroot]
    exact hread.config.symm
  subst hpurpose
  rw [hincumbent, hconfig] at hfree hsubject hcase
  refine ⟨ca, ?_, hfree, root, cert, hsubject, hissuer, hcase⟩
  have hmem := List.mem_of_find?_eq_some hca
  rw [hconfig] at hmem
  exact hmem

/-- What a lone issuing call has seen still holds when it records the leaf. -/
theorem IssueAccount.alone
    {profile : Profile}
    {cn : String}
    {valid : Option Nat}
    {csrKey : Option Key}
    {enrolled : Option (String × String)}
    {tx : Tx}
    (h : IssueAccount (Undisturbed r) 0 profile cn valid csrKey enrolled t tx) :
    ∃ ca cert issuer,
      t.db.loadConfig.caForProfile profile = some ca ∧
      t.pem (activeCa t.db t.db.loadConfig ca.purpose).slug = some issuer ∧
      cert.issuerCn = issuer.subjectCn ∧
      cert.aki = issuer.ski ∧
      tx = .issue cert issuer profile (activeCa t.db t.db.loadConfig ca.purpose).purpose
        (enrolled.map Prod.fst) := by
  obtain ⟨at_, ca, _, cert, issuer, purpose, hca, _, htx, h⟩ := h
  have hto : Still (Undisturbed r) 0 at_.issuer t :=
    (h.toCheck.trans (h.toBegun.trans (h.toNonce.trans h.toDuplicate))).trans
      (h.toDraw.trans h.toCommit)
  obtain ⟨hdb, hpem⟩ := hto.same
  obtain ⟨hdb', _⟩ := h.toIssuer.same
  obtain ⟨hdb'', _⟩ := h.toActive.same
  have hactive : at_.active.db = t.db := (hdb.trans hdb').symm
  have hconfig : at_.config.db = t.db := hdb''.symm.trans hactive
  have hpurpose := h.purpose
  have hissuer := h.pem
  rw [hactive, hconfig] at hpurpose hissuer
  rw [hconfig] at hca
  rw [← hpem] at hissuer
  exact ⟨ca, cert, issuer, hca, hissuer, h.issuerCn, h.aki, hpurpose ▸ htx⟩

/-- What a lone revocation of a generation has seen still holds when it is
recorded. -/
theorem RevokeCaAccount.alone
    {e : Event}
    (h : RevokeCaAccount (Undisturbed r) 0 s t e) :
    ∃ victim cn cert reason at_,
      genByCn t.db .signing cn = some victim ∧
      victim.gen ≠ (activeCa t.db t.db.loadConfig victim.purpose).gen ∧
      t.pem victim.slug = some cert ∧
      e = .commit (.revokeCa victim cert reason at_) := by
  obtain ⟨named, active, file, victim, cn, cert, reason, at_, hread, hvictim, hto, hgen, hto',
    hpem, hto'', he⟩ := h
  obtain ⟨hactive, _⟩ := hto.same
  obtain ⟨hfile, _⟩ := hto'.same
  obtain ⟨hdb, hpem'⟩ := hto''.same
  have hconfig : s.db.loadConfig = t.db.loadConfig := by
    rw [hdb, hfile, hactive]
    exact hread.config.symm
  rw [hconfig, ← hfile, ← hdb] at hgen
  rw [← hactive, ← hfile, ← hdb] at hvictim
  rw [← hpem'] at hpem
  exact ⟨victim, cn, cert, reason, at_, hvictim, hgen, hpem, he⟩

/-- What was missing when a lone `ensure_ca_index` looked for it was missing in
a store with the configuration it works on. -/
theorem BackfillAccount.alone
    {inv : Store → Prop}
    {config : Config}
    {row : CaRow}
    (h : BackfillAccount (Undisturbed r) 0 inv config s t (.backfill row)) :
    ∃ missing,
      inv missing ∧
      missing.db.loadConfig = s.db.loadConfig ∧
      missing.db = t.db ∧
      row.purpose ∈ "root" :: config.cas.map SigningCa.purpose ∧
      row.toCaGen = configGen config row.purpose ∧
      ∀ r ∈ missing.db.caIndex, r.purpose ≠ row.purpose := by
  obtain ⟨missing, issued, purpose, hread, hto, hto', hinv, hmem, hnone, _, he⟩ := h
  obtain ⟨hissued, _⟩ := hto.same
  obtain ⟨hdb, _⟩ := hto'.same
  have hrow := Event.backfill.inj he
  have hpurpose : row.purpose = purpose := by
    rw [hrow]
    exact configGen_purpose config purpose
  refine ⟨missing, hinv, hread.config, ?_, ?_, ?_, ?_⟩
  · rw [hdb, hissued]
  · rw [hpurpose]
    exact hmem
  · rw [hpurpose, hrow]
  · rw [hpurpose]
    exact hnone

end Same

end Ca
end Yca
