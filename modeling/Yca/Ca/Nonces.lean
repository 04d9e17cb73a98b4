import Yca.Ca.Conduct
import Yca.Ca.Initial

/-!
# Enrollment nonces

`get_nonce` and `sign_csr` settle everything about a nonce under the write lock:
the row of the identity is read, checked and written in one transaction.  So a
nonce pays for one certificate at most, in any interleaving, and what becomes of
a nonce that was handed out is decided by the transactions alone.
-/

namespace Yca
namespace Ca

open Yca.Core

/-- The nonces that were drawn. -/
def drawnNonces (log : List Event) : List String :=
  log.filterMap fun e =>
    match e with
    | .commit (.nonce _ value _) => some value
    | _ => none

/-- Runs in which a nonce drawn is not empty and was not drawn before. -/
def Rules.freshNonces : Rules :=
  Rules.given fun s e =>
    match e with
    | .commit (.nonce _ value _) => value ≠ "" ∧ value ∉ drawnNonces s.log
    | _ => True

instance : Decidable Rules.freshNonces.ceremonies :=
  inferInstanceAs (Decidable True)

instance (db : Db) (slug : String) : Decidable (Rules.freshNonces.keep db slug) :=
  inferInstanceAs (Decidable False)

instance (s : Store) (e : Event) : Decidable (Rules.freshNonces.only s e) := by
  unfold Rules.freshNonces Rules.given
  dsimp only
  split <;> infer_instance

/-- Where a signing call that is about to commit checked its nonce under the
write lock: a look for duplicates and the making of the certificate followed. -/
def nonceChecked (past : List Store) : Option Store :=
  past[past.length - 3]?

/-- A certificate gated by a nonce: the nonce was issued to this identity and to
no other, and where the call checked it the call held the write lock, over the
very database it commits on, and the clock it read there was before the expiry. -/
structure Gated (past : List Store) (s : Store) (p : Pid) (id nonce : String) : Prop where
  lock : s.lock = some p
  issued : ∃ t, Event.commit (.nonce id nonce t) ∈ s.log
  own : ∀ other t, Event.commit (.nonce other nonce t) ∈ s.log → other = id
  checked : ∃ check, nonceChecked past = some check ∧ check.lock = some p ∧ check.db = s.db ∧
    ∃ row ∈ check.db.enrollment,
      row.id = id ∧ row.nonce = nonce ∧ row.consumed = false ∧
        check.now < row.issued + row.validity * minute

section Rows

/-- What a transaction makes of the enrollments. -/
def Tx.enrolled (rows : List EnrollRow) : Tx → List EnrollRow
  | .issue _ _ _ _ id =>
      updateWhere (fun r => id == some r.id) (fun r => { r with consumed := true }) rows
  | .enroll id created => rows ++ [⟨id, created, "", 0, 0, true⟩]
  | .nonce id value issued =>
      updateWhere (fun r => r.id == id)
        (fun r =>
          { r with
            nonce := value, issued := issued, validity := maxNonceValidity,
            consumed := false })
        rows
  | _ => rows

theorem run_enrollment
    {tx : Tx}
    {db db' : Db}
    (h : tx.run db = some db') :
    db'.enrollment = tx.enrolled db.enrollment := by
  cases tx with
  | generation next cert key lock =>
      obtain ⟨_, _, rfl⟩ := run_generation h
      rfl
  | enroll id created =>
      obtain ⟨_, rfl⟩ := run_enroll h
      rfl
  | _ =>
      rw [← Option.some.inj h]
      rfl

/-- Plain events leave the database alone. -/
theorem plain_db
    {e : Event}
    (he : e.plain = true)
    (p : Pid)
    (s : Store) :
    (s.apply p e).db = s.db := by
  cases e with
  | key use => exact (apply_key_db p use s).1
  | publish slug issuer file => cases file <;> rfl
  | commit tx => simp [Event.plain] at he
  | backfill row => simp [Event.plain] at he
  | _ => rfl

/-- Only commits change the enrollments. -/
theorem enrollment_apply
    {e : Event}
    (he : e.commits = false)
    (p : Pid)
    (s : Store) :
    (s.apply p e).db.enrollment = s.db.enrollment := by
  cases e with
  | key use => rw [(apply_key_db p use s).1]
  | publish slug issuer file => cases file <;> rfl
  | commit tx => simp [Event.commits] at he
  | _ => rfl

theorem mem_drawnNonces
    {log : List Event}
    {id value : String}
    {t : Nat}
    (h : Event.commit (.nonce id value t) ∈ log) :
    value ∈ drawnNonces log :=
  List.mem_filterMap.mpr ⟨_, h, rfl⟩

/-- A nonce that passes the check is the pending nonce of the identity. -/
theorem row_of_nonce
    {db : Db}
    {id nonce : String}
    {now : Nat}
    (h : nonceRejected db id nonce now = false) :
    ∃ row ∈ db.enrollment,
      row.id = id ∧ row.nonce = nonce ∧ row.nonce ≠ "" ∧ row.consumed = false ∧
        now < row.issued + row.validity * minute := by
  unfold nonceRejected at h
  split at h
  · simp at h
  · rename_i row hrow
    obtain ⟨hmem, hid⟩ := mem_of_find?_key hrow
    simp only [Bool.or_eq_false_iff, beq_eq_false_iff_ne, decide_eq_false_iff_not, bne_eq_false_iff_eq,
      Nat.not_le] at h
    obtain ⟨⟨⟨hempty, hconsumed⟩, hexpiry⟩, hnonce⟩ := h
    exact ⟨row, hmem, hid, hnonce.symm, hempty, hconsumed, hexpiry⟩

end Rows

section Invariant

/-- What holds of the enrollments: one row for each identity, and a nonce in a
row was drawn for its identity, as for no other. -/
structure Enrolled (s : Store) : Prop where
  ids : UniqueKey EnrollRow.id s.db.enrollment
  named : ∀ row ∈ s.db.enrollment, row.nonce ≠ "" →
    ∃ t, Event.commit (.nonce row.id row.nonce t) ∈ s.log
  own : ∀ id id' value t t', Event.commit (.nonce id value t) ∈ s.log →
    Event.commit (.nonce id' value t') ∈ s.log → id = id'

/-- A nonce that gates nothing any more. -/
structure Spent (value : String) (s : Store) : Prop where
  filled : value ≠ ""
  drawn : value ∈ drawnNonces s.log
  consumed : ∀ row ∈ s.db.enrollment, row.nonce = value → row.consumed = true

/-- The rows of one nonce are one row. -/
theorem Enrolled.row_eq
    {s : Store}
    (h : Enrolled s)
    {row row' : EnrollRow}
    (hrow : row ∈ s.db.enrollment)
    (hrow' : row' ∈ s.db.enrollment)
    (hfilled : row.nonce ≠ "")
    (hnonce : row'.nonce = row.nonce) :
    row' = row := by
  obtain ⟨t, hlog⟩ := h.named row hrow hfilled
  obtain ⟨t', hlog'⟩ := h.named row' hrow' (by rw [hnonce]; exact hfilled)
  rw [hnonce] at hlog'
  exact h.ids.eq hrow' hrow (h.own _ _ _ _ _ hlog' hlog)

/-- The invariant is about the enrollments and the nonces drawn. -/
theorem Enrolled.frame
    {s s' : Store}
    (h : Enrolled s)
    (hrows : s'.db.enrollment = s.db.enrollment)
    (hlog : ∀ e ∈ s.log, e ∈ s'.log)
    (hnew : ∀ id value t, Event.commit (.nonce id value t) ∈ s'.log →
      Event.commit (.nonce id value t) ∈ s.log) :
    Enrolled s' := by
  refine ⟨by rw [hrows]; exact h.ids, ?_, ?_⟩
  · rw [hrows]
    intro row hrow hfilled
    obtain ⟨t, ht⟩ := h.named row hrow hfilled
    exact ⟨t, hlog _ ht⟩
  · intro id id' value t t' ht ht'
    exact h.own id id' value t t' (hnew _ _ _ ht) (hnew _ _ _ ht')

theorem Enrolled.commit
    {p : Pid}
    {s : Store}
    {tx : Tx}
    {db : Db}
    (h : Enrolled s)
    (hrun : tx.run s.db = some db)
    (hfresh : ∀ id value t, tx = .nonce id value t → value ∉ drawnNonces s.log) :
    Enrolled (s.apply p (.commit tx)) := by
  have hrows := run_enrollment hrun
  rw [apply_commit p hrun]
  cases tx with
  | nonce id value issued =>
      have hvalue : value ∉ drawnNonces s.log := hfresh id value issued rfl
      refine ⟨?_, ?_, ?_⟩
      · show UniqueKey EnrollRow.id db.enrollment
        rw [hrows]
        exact h.ids.updateWhere _ fun _ => rfl
      · intro row hrow hfilled
        have hmem : row ∈ Tx.enrolled s.db.enrollment (.nonce id value issued) := by
          rw [← hrows]
          exact hrow
        obtain ⟨row₀, hrow₀, ⟨hid, rfl⟩ | ⟨_, rfl⟩⟩ := mem_updateWhere.mp hmem
        · have hid' : row₀.id = id := by simpa using hid
          exact ⟨issued, by rw [← hid']; exact List.mem_cons_self⟩
        · obtain ⟨t, ht⟩ := h.named row hrow₀ hfilled
          exact ⟨t, List.mem_cons_of_mem _ ht⟩
      · intro id₁ id₂ v t₁ t₂ h₁ h₂
        rcases List.mem_cons.mp h₁ with heq₁ | hold₁
        · rcases List.mem_cons.mp h₂ with heq₂ | hold₂
          · simp only [Event.commit.injEq, Tx.nonce.injEq] at heq₁ heq₂
            rw [heq₁.1, heq₂.1]
          · simp only [Event.commit.injEq, Tx.nonce.injEq] at heq₁
            rw [heq₁.2.1] at hold₂
            exact absurd (mem_drawnNonces hold₂) hvalue
        · rcases List.mem_cons.mp h₂ with heq₂ | hold₂
          · simp only [Event.commit.injEq, Tx.nonce.injEq] at heq₂
            rw [heq₂.2.1] at hold₁
            exact absurd (mem_drawnNonces hold₁) hvalue
          · exact h.own id₁ id₂ v t₁ t₂ hold₁ hold₂
  | enroll id created =>
      refine ⟨?_, ?_, ?_⟩
      · show UniqueKey EnrollRow.id db.enrollment
        rw [hrows]
        exact h.ids.append ((run_enroll hrun).1)
      · intro row hrow hfilled
        have hmem : row ∈ Tx.enrolled s.db.enrollment (.enroll id created) := by
          rw [← hrows]
          exact hrow
        rcases List.mem_append.mp hmem with hold | hlast
        · obtain ⟨t, ht⟩ := h.named row hold hfilled
          exact ⟨t, List.mem_cons_of_mem _ ht⟩
        · rw [List.mem_singleton.mp hlast] at hfilled
          exact absurd rfl hfilled
      · intro id₁ id₂ v t₁ t₂ h₁ h₂
        exact h.own id₁ id₂ v t₁ t₂ (by simpa using h₁) (by simpa using h₂)
  | issue cert issuer profile purpose id =>
      refine ⟨?_, ?_, ?_⟩
      · show UniqueKey EnrollRow.id db.enrollment
        rw [hrows]
        exact h.ids.updateWhere _ fun _ => rfl
      · intro row hrow hfilled
        have hmem : row ∈ Tx.enrolled s.db.enrollment (.issue cert issuer profile purpose id) := by
          rw [← hrows]
          exact hrow
        obtain ⟨row₀, hrow₀, hcase⟩ := mem_updateWhere.mp hmem
        have hsame : row.id = row₀.id ∧ row.nonce = row₀.nonce := by
          rcases hcase with ⟨_, rfl⟩ | ⟨_, rfl⟩
          · exact ⟨rfl, rfl⟩
          · exact ⟨rfl, rfl⟩
        rw [hsame.2] at hfilled
        obtain ⟨t, ht⟩ := h.named row₀ hrow₀ hfilled
        rw [hsame.1, hsame.2]
        exact ⟨t, List.mem_cons_of_mem _ ht⟩
      · intro id₁ id₂ v t₁ t₂ h₁ h₂
        exact h.own id₁ id₂ v t₁ t₂ (by simpa using h₁) (by simpa using h₂)
  | _ =>
      refine h.frame hrows (fun e he => List.mem_cons_of_mem _ he) ?_
      intro id value t ht
      simpa using ht

theorem Enrolled.event
    {p : Pid}
    {s : Store}
    {e : Event}
    (h : Enrolled s)
    (hallow : Rules.freshNonces.allow p s e)
    (hmeets : Meets Rules.freshNonces p s e) :
    Enrolled (s.apply p e) := by
  cases e with
  | commit tx =>
      obtain ⟨db, hdb⟩ := Option.isSome_iff_exists.mp hmeets.2.1
      refine h.commit hdb ?_
      rintro id value t rfl
      exact hallow.2
  | _ =>
      refine h.frame (enrollment_apply rfl p s) (fun x hx => mem_apply_log p _ s hx) ?_
      intro id value t ht
      rcases mem_log_apply ht with hold | hnew
      · exact hold
      · simp at hnew

/-- What was spent stays spent: a row gets another nonce, or none. -/
theorem Spent.event
    {value : String}
    {p : Pid}
    {s : Store}
    {e : Event}
    (h : Spent value s)
    (hallow : Rules.freshNonces.allow p s e)
    (hmeets : Meets Rules.freshNonces p s e) :
    Spent value (s.apply p e) := by
  have hdrawn : value ∈ drawnNonces (s.apply p e).log := by
    obtain ⟨x, hx, hvalue⟩ := List.mem_filterMap.mp h.drawn
    exact List.mem_filterMap.mpr ⟨x, mem_apply_log p e s hx, hvalue⟩
  refine ⟨h.filled, hdrawn, ?_⟩
  cases e with
  | commit tx =>
      obtain ⟨db, hdb⟩ := Option.isSome_iff_exists.mp hmeets.2.1
      have hrows := run_enrollment hdb
      rw [apply_commit p hdb]
      show ∀ row ∈ db.enrollment, row.nonce = value → row.consumed = true
      rw [hrows]
      intro row hrow hnonce
      cases tx with
      | issue cert issuer profile purpose id =>
          obtain ⟨row₀, hrow₀, ⟨_, rfl⟩ | ⟨_, rfl⟩⟩ := mem_updateWhere.mp hrow
          · rfl
          · exact h.consumed row hrow₀ hnonce
      | enroll id created =>
          rcases List.mem_append.mp hrow with hold | hlast
          · exact h.consumed row hold hnonce
          · rw [List.mem_singleton.mp hlast]
      | nonce id fresh issued =>
          obtain ⟨row₀, hrow₀, ⟨_, rfl⟩ | ⟨_, rfl⟩⟩ := mem_updateWhere.mp hrow
          · have hsame : fresh = value := hnonce
            rw [← hsame] at h
            exact absurd h.drawn hallow.2
          · exact h.consumed row hrow₀ hnonce
      | _ => exact h.consumed row hrow hnonce
  | _ =>
      rw [enrollment_apply rfl p s]
      exact h.consumed

theorem Initialised.enrolled
    {s : Store}
    (h : Initialised s) :
    Enrolled s := by
  obtain ⟨config, rootCert, rootKey, minted, hs⟩ := h.ceremony
  have hrows : s.db.enrollment = [] := by
    rw [hs.db]
    rfl
  refine ⟨by rw [hrows]; exact UniqueKey.nil, by simp [hrows], ?_⟩
  intro id id' value t t' ht
  rcases hs.log _ ht with ⟨use, huse, _⟩ | ⟨slug, issuer, file, hpublish, _⟩
  · simp at huse
  · simp at hpublish

end Invariant

section Readings

variable
  {r : Rules}
  {req : Request}
  {p : Pid}
  {Tells : List Store → Store → Event → Prop}
  (hT : ∀ past s e, e.commits = false → Tells past s e)
  {past : List Store}
  {s : Store}
include hT

theorem told_look
    {next : Choice → Store → Command}
    (h : ∀ k t, Shared r p s t →
      (r.conduct.of req).Follows machine p Tells (past ++ [t]) (next k t) t) :
    (r.conduct.of req).Follows machine p Tells past (look next) s := by
  intro t k ht _ _ _
  exact ⟨hT past t _ rfl, h k t ht⟩

theorem told_beginWrite
    {next : Command}
    (h : ∀ t, (r.conduct.of req).Follows machine p Tells (past ++ [t]) next
      (t.apply p .begin)) :
    (r.conduct.of req).Follows machine p Tells past (beginWrite next) s := by
  intro t k _ _ _ _
  exact ⟨hT past t _ rfl, h t⟩

theorem told_abort :
    (r.conduct.of req).Follows machine p Tells past abort s := by
  intro t k _ _ _ _
  exact ⟨hT past t _ rfl, trivial⟩

theorem told_commitWrite
    {tx : Store → Tx}
    (h : ∀ t, Shared r p s t → Tells past t (.commit (tx t))) :
    (r.conduct.of req).Follows machine p Tells past (commitWrite tx) s := by
  intro t k ht _ _ _
  refine ⟨?_, trivial⟩
  show Tells past t (if ((tx t).run t.db).isSome = true then _ else _)
  split
  · exact h t ht
  · exact hT past t _ rfl

theorem told_key
    {α : Type}
    {found : Choice → Store → Option α}
    {use : α → KeyUse}
    {next : α → Command}
    (h : ∀ a t, (r.conduct.of req).Follows machine p Tells (past ++ [t]) (next a)
      (t.apply p (.key (use a)))) :
    (r.conduct.of req).Follows machine p Tells past
      (emitting found (fun a => .key (use a)) next) s := by
  intro t k _ _ hready _
  obtain ⟨a, ha⟩ := Option.isSome_iff_exists.mp hready
  simp only [ha, Option.map_some, Option.getD_some]
  exact ⟨hT past t _ rfl, h a t⟩

end Readings

section Checks

/-- What a commit of a signing request rests on. -/
def ChecksNonce
    (p : Pid)
    (id nonce : String)
    (past : List Store)
    (s : Store)
    (e : Event) : Prop :=
  e.commits = true →
    ∃ check, nonceChecked past = some check ∧ check.lock = some p ∧ check.db = s.db ∧
      s.lock = some p ∧ nonceRejected check.db id nonce check.now = false

theorem checksNonce_other
    {p : Pid}
    {id nonce : String}
    (past : List Store)
    (s : Store)
    (e : Event)
    (he : e.commits = false) :
    ChecksNonce p id nonce past s e := by
  intro hcommits
  rw [he] at hcommits
  simp at hcommits

variable {r : Rules} {p : Pid} {req : Request}

/-- Between the second check and the commit the lock is held. -/
theorem told_locked
    {id nonce : String}
    {cn : String}
    {profile : Profile}
    {tx : Choice → Store → Tx}
    {past : List Store}
    {s : Store}
    (hs : s.lock = some p) :
    (r.conduct.of req).Follows machine p (ChecksNonce p id nonce) past
      (checkNonce (some (id, nonce)) abort <|
        checkDuplicate cn profile abort <|
        look fun k draw => commitWrite fun _ => tx k draw) s := by
  refine told_look checksNonce_other fun _ check hcheck => ?_
  obtain ⟨hlock, _⟩ := hcheck.others.locked hs
  split
  · exact told_abort checksNonce_other
  · rename_i haccepted
    refine told_look checksNonce_other fun _ duplicate hduplicate => ?_
    obtain ⟨hlock₁, hdb₁⟩ := hduplicate.others.locked hlock
    split
    · exact told_abort checksNonce_other
    · refine told_look checksNonce_other fun k draw hdraw => ?_
      obtain ⟨hlock₂, hdb₂⟩ := hdraw.others.locked hlock₁
      refine told_commitWrite checksNonce_other fun t ht => ?_
      obtain ⟨hlock₃, hdb₃⟩ := ht.others.locked hlock₂
      intro _
      refine ⟨check, by simp [nonceChecked], hlock, ?_, hlock₃, by simpa using haccepted⟩
      rw [hdb₃, hdb₂, hdb₁]

/-- A signing request checks its nonce once more when it holds the lock. -/
theorem told_signCsr
    {config : Config}
    {ca : SigningCa}
    {profile : Profile}
    {cn id nonce : String}
    {validity : Nat}
    {csrKey : Option Key}
    {past : List Store}
    {s : Store} :
    (r.conduct.of req).Follows machine p (ChecksNonce p id nonce) past
      (issue config ca profile cn validity csrKey (some (id, nonce))) s := by
  refine told_look checksNonce_other fun _ active _ => ?_
  refine told_look checksNonce_other fun _ file _ => ?_
  split
  · trivial
  · refine told_look checksNonce_other fun _ check _ => ?_
    split
    · trivial
    · refine told_look checksNonce_other fun _ t₁ _ => ?_
      split
      · trivial
      · refine told_look checksNonce_other fun _ t₂ _ => ?_
        split
        · trivial
        · refine told_key checksNonce_other fun key t₃ => ?_
          refine told_beginWrite checksNonce_other fun t₄ => ?_
          exact told_locked rfl

/-- What is told of a call. -/
def TellsNonce
    (req : Request)
    (p : Pid)
    (past : List Store)
    (s : Store)
    (e : Event) : Prop :=
  match req with
  | .signCsr _ id nonce _ _ _ => ChecksNonce p id nonce past s e
  | _ => True

theorem told_start (req : Request) (s : Store) :
    (r.conduct.of req).Follows machine p (TellsNonce req p) [] (start req) s := by
  cases req with
  | signCsr profile id nonce cn csrKey valid =>
      show (r.conduct.of _).Follows machine p (ChecksNonce p id nonce) [] _ s
      refine told_look checksNonce_other fun _ read _ => ?_
      simp only [Request.run]
      split
      · trivial
      · split
        · trivial
        · exact told_signCsr
  | _ => exact Discipline.Follows.always (fun _ _ _ => trivial) [] _ s

end Checks

section Gate

variable {p : Pid}

/-- The nonce check of a signing request ran on the database it commits on. -/
theorem check_of_account
    {r : Rules}
    {profile : Profile}
    {cn id nonce : String}
    {valid : Option Nat}
    {csrKey : Option Key}
    {t : Store}
    {tx : Tx}
    (h : IssueAccount (Shared r) p profile cn valid csrKey (some (id, nonce)) t tx) :
    (∃ now, nonceRejected t.db id nonce now = false) ∧
      ∃ cert issuer purpose, tx = .issue cert issuer profile purpose (some id) := by
  obtain ⟨at_, ca, validity, cert, issuer, purpose, _, _, htx, h⟩ := h
  obtain ⟨hlock, _⟩ := h.toNonce.calm.locked h.locked
  have hto : Calm (Shared r) p at_.nonce t :=
    h.toDuplicate.calm.trans (h.toDraw.calm.trans h.toCommit.calm)
  obtain ⟨_, hdb⟩ := hto.locked hlock
  refine ⟨⟨at_.nonce.now, ?_⟩, cert, issuer, purpose, htx⟩
  rw [hdb]
  exact h.nonce id nonce rfl

/-- A call that checked its nonce commits a gated certificate. -/
theorem ChecksNonce.gated
    {past : List Store}
    {s : Store}
    (hs : Enrolled s)
    {id nonce : String}
    {e : Event}
    (h : ChecksNonce p id nonce past s e)
    (he : e.commits = true) :
    Gated past s p id nonce := by
  obtain ⟨check, hpast, hheld, hdb, hlock, haccepted⟩ := h he
  obtain ⟨row, hrow, rfl, rfl, hfilled, hconsumed, hexpiry⟩ := row_of_nonce haccepted
  rw [hdb] at hrow
  obtain ⟨t, ht⟩ := hs.named row hrow hfilled
  refine ⟨hlock, ⟨t, ht⟩, ?_, check, hpast, hheld, hdb, row, ?_, rfl, rfl, hconsumed, hexpiry⟩
  · intro other t' ht'
    exact hs.own _ _ _ _ _ ht' ht
  · rw [hdb]
    exact hrow

/-- The transaction of a signing request spends the nonce. -/
theorem spent_of_account
    {s : Store}
    (hs : Enrolled s)
    {profile : Profile}
    {cn id nonce : String}
    {valid : Option Nat}
    {csrKey : Option Key}
    {tx : Tx}
    (haccount : IssueAccount (Shared Rules.freshNonces) p profile cn valid csrKey
      (some (id, nonce)) s tx)
    (hrun : (tx.run s.db).isSome = true) :
    Spent nonce (s.apply p (.commit tx)) := by
  obtain ⟨⟨now, hcheck⟩, cert, issuer, purpose, rfl⟩ := check_of_account haccount
  obtain ⟨row, hrow, rfl, rfl, hfilled, _, _⟩ := row_of_nonce hcheck
  obtain ⟨t, ht⟩ := hs.named row hrow hfilled
  refine ⟨hfilled, ?_, ?_⟩
  · obtain ⟨x, hx, hvalue⟩ := List.mem_filterMap.mp (mem_drawnNonces ht)
    exact List.mem_filterMap.mpr ⟨x, mem_apply_log p _ s hx, hvalue⟩
  · obtain ⟨db, hdb⟩ := Option.isSome_iff_exists.mp hrun
    rw [apply_commit p hdb]
    show ∀ other ∈ db.enrollment, other.nonce = row.nonce → other.consumed = true
    rw [run_enrollment hdb]
    intro other hother hnonce
    obtain ⟨row₀, hrow₀, ⟨_, rfl⟩ | ⟨hid, rfl⟩⟩ := mem_updateWhere.mp hother
    · rfl
    · rw [hs.row_eq hrow hrow₀ hfilled hnonce] at hid
      simp at hid

end Gate

section Runs

/-- The runs in which the nonces drawn are fresh. -/
def freshRecords : ycaRecords.Guarded :=
  Guard.through Recorded.forget (Rules.freshNonces.calls fun _ => True)

instance (w : World Store (Recorded Store Request Command)) (a : Action Choice Request Outside) :
    Decidable (freshRecords w a) := by
  unfold freshRecords
  infer_instance

/-- Every request is admitted. -/
theorem freshNonces_admits (req : Request) (_ : True) :
    Rules.freshNonces.Admits req :=
  Rules.given_admits _ req

variable {w w' : World Store (Request × Command)}

theorem enrolled_of_calls
    (hw : (ycaCalls.system Initialised).Reachable
      (Rules.freshNonces.calls fun _ => True) w) :
    Enrolled w.shared := by
  refine calls_keep freshNonces_admits (fun s hs => hs.enrolled) ?_ hw
  intro s s' hs hmove
  refine keeps_of_calls ?_ ?_ hs hmove
  · intro s p req e hs hallow hmeets _
    exact hs.event hallow hmeets
  · intro s s' hs hdb _ _ hlog _
    refine hs.frame (congrArg Db.enrollment hdb) ?_ ?_
    · rw [hlog]
      exact fun _ h => h
    · rw [hlog]
      exact fun _ _ _ h => h

/-- A spent nonce stays spent. -/
theorem spent_of_run
    {value : String}
    {as : List (Action Choice Request Outside)}
    (hw : (ycaCalls.system Initialised).Reachable (Rules.freshNonces.calls fun _ => True) w)
    (hrun : (ycaCalls.system Initialised).Run (Rules.freshNonces.calls fun _ => True) w as w')
    (h : Spent value w.shared) :
    Spent value w'.shared := by
  refine calls_stable freshNonces_admits (P := Spent value) ?_ hw hrun h
  intro s s' hs hmove
  refine keeps_of_calls ?_ ?_ hs hmove
  · intro s p req e hs hallow hmeets _
    exact hs.event hallow hmeets
  · intro s s' hs hdb _ _ hlog _
    refine ⟨hs.filled, by rw [hlog]; exact hs.drawn, ?_⟩
    rw [hdb]
    exact hs.consumed

/-- A signing request does not commit with a spent nonce. -/
theorem Spent.blocks
    {p : Pid}
    {profile : Profile}
    {cn id nonce : String}
    {csrKey : Key}
    {valid : Option Nat}
    {e : Event}
    (h : Spent nonce w.shared)
    (hw : (ycaCalls.system Initialised).Reachable (Rules.freshNonces.calls fun _ => True) w)
    (he : machine.Emits start (Rules.freshNonces.calls fun _ => True) w p
      (.signCsr profile id nonce cn csrKey valid) e w') :
    e.commits = false := by
  obtain ⟨_, _, hplain | ⟨tx, rfl, hissue⟩⟩ := call_emitted freshNonces_admits hw he
  · cases e <;> simp [Event.plain, Event.commits] at hplain ⊢
  · -- The nonce would have to be pending again.
    obtain ⟨⟨now, hcheck⟩, _⟩ := check_of_account hissue
    obtain ⟨row, hrow, _, hnonce, _, hconsumed, _⟩ := row_of_nonce hcheck
    rw [h.consumed row hrow hnonce] at hconsumed
    simp at hconsumed

/-- In every interleaving of the commands a nonce gates at most one certificate,
of a call that names the identity it was issued to and whose check under the
write lock read the clock before the expiry; a signing call that does not
succeed leaves the enrollments and the index of certificates as they are. -/
theorem nonce_gates_one_certificate
    {w w' : World Store (Recorded Store Request Command)}
    (hw : (ycaRecords.system Initialised).Reachable freshRecords w)
    {p : Pid}
    {c : Recorded Store Request Command}
    {profile : Profile}
    {id nonce cn : String}
    {csrKey : Key}
    {valid : Option Nat}
    {e : Event}
    (hcall : c.call = .signCsr profile id nonce cn csrKey valid)
    (he : machine.RecordEmits start freshRecords w p c e w') :
    (e.commits = false →
      w'.shared.db.enrollment = w.shared.db.enrollment ∧
        w'.shared.db.certIndex = w.shared.db.certIndex) ∧
    (e.commits = true →
      w'.procs p = none ∧
        (∃ cert issuer purpose, e = .commit (.issue cert issuer profile purpose (some id))) ∧
        Gated c.past w.shared p id nonce ∧
        ∀ as v v' q c' profile' id' cn' csrKey' valid' e',
          (ycaRecords.system Initialised).Run freshRecords w' as v →
          c'.call = .signCsr profile' id' nonce cn' csrKey' valid' →
          machine.RecordEmits start freshRecords v q c' e' v' →
          e'.commits = false) := by
  have hforget := (machine.records_forget start).refinement Initialised
    (Rules.freshNonces.calls fun _ => True)
  have hcalls := hforget.reachable hw
  have hemits := he.forget
  rw [hcall] at hemits
  obtain ⟨hallow, hmeets, haccount⟩ := call_emitted freshNonces_admits hcalls hemits
  have hshared : w'.shared = w.shared.apply p e := hemits.shared
  constructor
  · intro hnot
    rcases haccount with hplain | ⟨tx, rfl, _⟩
    · have hdb : w'.shared.db = w.shared.db := by
        rw [hshared]
        exact plain_db hplain p w.shared
      exact ⟨congrArg Db.enrollment hdb, congrArg Db.certIndex hdb⟩
    · simp [Event.commits] at hnot
  · intro hcommits
    rcases haccount with hplain | ⟨tx, rfl, hissue⟩
    · cases e <;> simp [Event.plain, Event.commits] at hplain hcommits
    · have htold := Conduct.records_followed (C := Rules.freshNonces.conduct)
        (conduct_sound _) (fun _ _ => trivial)
        (fun req q s h _ => conduct_start (freshNonces_admits req h) q s)
        (fun req q s _ _ => told_start req s) hw he
      rw [hcall] at htold
      obtain ⟨_, cert, issuer, purpose, rfl⟩ := check_of_account hissue
      have hspent := spent_of_account (enrolled_of_calls hcalls) hissue hmeets.2.1
      have hended := Machine.ended_of_emits ends_start hcalls hemits rfl
      refine ⟨by simpa using hended, ⟨cert, issuer, purpose, rfl⟩,
        htold.gated (enrolled_of_calls hcalls) rfl, ?_⟩
      intro as v v' q c' profile' id' cn' csrKey' valid' e' hrun hcall' he'
      obtain ⟨k, hG, hx⟩ := he.step
      have hw' := hw.step hG hx
      obtain ⟨bs, hbs⟩ := hforget.run hw' hrun
      have hspent' : Spent nonce v.shared := by
        refine spent_of_run (hforget.reachable hw') hbs ?_
        rw [World.map_shared, hshared]
        exact hspent
      have hemits' := he'.forget
      rw [hcall'] at hemits'
      exact hspent'.blocks (hforget.reachable (hw'.run hrun)) hemits'

/-- What a step draws, with a nonce. -/
def nonceChoice (key : Key) (nonce : String) : Choice :=
  { sampleChoice key with nonce := nonce }

/-- An identity is enrolled, gets a nonce and has a request signed. -/
theorem nonce_gates_one_certificate_sample :
    ∃ (w : World Store (Recorded Store Request Command)) (past : List Store),
      Gated past w.shared 3 "c" "n1" := by
  have h :
      ((ycaRecords.system Initialised).follow freshRecords (World.idle sampleStore)
        ([.spawn 1 (.enroll "c")] ++ acts 1 4 (sampleChoice 31) ++
          [.spawn 2 (.getNonce "c")] ++ acts 2 5 (nonceChoice 32 "n1") ++
          [.spawn 3 (.signCsr .server "c" "n1" "a.ca" 77 none)] ++
          acts 3 11 (sampleChoice 33))).any
        (fun w =>
          ((w.procs 3).any fun c => c.call == .signCsr .server "c" "n1" "a.ca" 77 none) &&
            decide (freshRecords w (.act 3 (sampleChoice 33))) &&
            w.shared.db.enrollment.all (fun row => !row.consumed) &&
            ((ycaRecords.system Initialised).exec w (.act 3 (sampleChoice 33))).any fun w' =>
              w'.shared.db.enrollment.any fun row => row.consumed) = true := by
    decide
  obtain ⟨w, hrun, hcheck⟩ := Automaton.Run.exists_of_follow h
  have hw := Automaton.Reachable.of_run
    (M := ycaRecords.system Initialised) ⟨sampleStore_initialised, World.idle_quiet _⟩ hrun
  simp only [Bool.and_eq_true, beq_iff_eq, decide_eq_true_eq, Option.any_eq_true,
    List.all_eq_true, Bool.not_eq_true', List.any_eq_true] at hcheck
  obtain ⟨⟨⟨⟨c, hc, hcall⟩, hG⟩, hpending⟩, w', hx, row, hrow, hconsumed⟩ := hcheck
  obtain ⟨e, he⟩ := Machine.RecordEmits.of_exec hc hG hx
  obtain ⟨hsame, hgated⟩ := nonce_gates_one_certificate hw hcall he
  cases hcommits : e.commits with
  | true => exact ⟨w, c.past, (hgated hcommits).2.2.1⟩
  | false =>
      rw [(hsame hcommits).1] at hrow
      rw [hpending row hrow] at hconsumed
      simp at hconsumed

end Runs

end Ca
end Yca
