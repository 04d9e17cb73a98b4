import Yca.Acme.Jws
import Yca.Acme.State
import Mathlib.Data.List.Perm.Subperm

/-!
# Replay nonces

The `nonces` table (`acme/db.go`) under any sequence of `IssueNonce` and
`ConsumeNonce` calls and of signed requests.  A row's id is one past the largest
id in use, so ids are handed out again after deletions (SQLite's last id, 2^63 - 1,
is out of reach of any run); the clock is read twice in a call, for the cutoff and
for the new row, and any statement may fail.

The cap works on row ids although it is about ages.  What makes that right is
that an id grows by at most one with each nonce issued: the distance from a row
to the newest is at most the number of nonces issued after it.
-/

namespace Yca
namespace Acme
namespace Replay

open Yca.Core

/-- `nonceTTL`, 30 minutes. -/
def nonceTTL : Nat :=
  30 * 60 * 1000000000

/-- `maxNonces`. -/
def maxNonces : Nat :=
  10000

/-- A row of `nonces`; `created` is in seconds. -/
structure NonceRow where
  rowid : Nat
  value : String
  created : Nat
  deriving DecidableEq

/-- `SELECT MAX(rowid) FROM nonces`. -/
def maxRowid (rows : List NonceRow) : Option Nat :=
  (rows.map NonceRow.rowid).max?

/-- The id SQLite gives a new row. -/
def nextRowid (rows : List NonceRow) : Nat :=
  match maxRowid rows with
  | none => 1
  | some m => m + 1

/-- `DELETE FROM nonces WHERE created < ?`. -/
def deleteOlder (cutoff : Int) (rows : List NonceRow) : List NonceRow :=
  rows.filter fun r => !decide ((r.created : Int) < cutoff)

/-- `DELETE FROM nonces WHERE rowid <= (SELECT MAX(rowid) FROM nonces) - ?`; on
the empty table the bound is NULL. -/
def deleteBeyond (keep : Nat) (rows : List NonceRow) : List NonceRow :=
  match maxRowid rows with
  | none => rows
  | some m => rows.filter fun r => !decide ((r.rowid : Int) ≤ (m : Int) - keep)

/-- `INSERT INTO nonces`, refused when the value is there already. -/
def insertNonce (value : String) (created : Nat) (rows : List NonceRow) :
    Option (List NonceRow) :=
  if rows.any fun r => r.value == value then none
  else some (rows ++ [⟨nextRowid rows, value, created⟩])

/-- Which of the three statements of a call go through. -/
structure IssueRun where
  age : Bool
  cap : Bool
  insert : Bool

/-- `IssueNonce`: the table afterwards and the nonce, if one was issued.  `n` is
drawn by `newID`; the clock reads `t₁` for the cutoff and `t₂` for the row. -/
def issueNonce
    (n : String)
    (t₁ t₂ : Nat)
    (run : IssueRun)
    (rows : List NonceRow) :
    List NonceRow × Option String :=
  if !run.age then (rows, none)
  else
    let rows := deleteOlder (gcCutoff t₁ nonceTTL) rows
    if !run.cap then (rows, none)
    else
      let rows := deleteBeyond (maxNonces - 1) rows
      match if run.insert then insertNonce n (unix t₂) rows else none with
      | none => (rows, none)
      | some rows => (rows, some n)

/-- How a `ConsumeNonce` call can go wrong. -/
inductive ConsumeFault
  /-- The statement fails. -/
  | exec
  /-- The statement ran, the count of its rows cannot be read. -/
  | affected
  deriving DecidableEq

/-- `ConsumeNonce`: the table afterwards and the answer. -/
def consumeNonce
    (n : String)
    (fault : Option ConsumeFault)
    (rows : List NonceRow) :
    List NonceRow × Option Bool :=
  match fault with
  | some .exec => (rows, none)
  | some .affected => (rows.filter fun r => r.value != n, none)
  | none =>
      (rows.filter fun r => r.value != n,
        some (decide (0 < rows.countP fun r => r.value == n)))

/-- What the history records: nonces issued (with the clock's reading for the
row), nonces that `ConsumeNonce` took out of the table, nonces it answered for,
and the signed bodies `verifyJWS` accepted. -/
inductive Event
  | issued (value : String) (time : Nat)
  | spent (value : String)
  | answered (value : String)
  | accepted (body : String)
  deriving DecidableEq

/-- The table, the last reading of the clock, the values drawn, the history. -/
structure Nonces where
  rows : List NonceRow
  clock : Nat
  drawn : List String
  log : List Event

/-- A call. -/
inductive Call
  | issue (n : String) (t₁ t₂ : Nat) (run : IssueRun)
  | consume (n : String) (fault : Option ConsumeFault)
  /-- A request is verified; `found` is what its account lookup returns. -/
  | verify (path : String) (allowJWK : Bool) (body : Option String)
      (fault : Option ConsumeFault) (found : Option (Option AccountRow))

/-- The history of one `ConsumeNonce`. -/
def consumed (n : String) (before after : List NonceRow) (answer : Option Bool) :
    List Event :=
  (if after.length < before.length then [.spent n] else []) ++
    if answer = some true then [.answered n] else []

variable {κ : Type} (J : Jose κ) (S : Server)

/-- One call.  The clock never goes back. -/
def exec (s : Nonces) : Call → Option Nonces
  | .issue n t₁ t₂ run =>
      if s.clock ≤ t₁ ∧ t₁ ≤ t₂ then
        let (rows, issued) := issueNonce n t₁ t₂ run s.rows
        some
          { rows
            clock := t₂
            drawn := s.drawn ++ [n]
            log := s.log ++ issued.toList.map fun v => .issued v t₂ }
      else none
  | .consume n fault =>
      let (rows, answer) := consumeNonce n fault s.rows
      some { s with rows, log := s.log ++ consumed n s.rows rows answer }
  | .verify path allowJWK body fault found =>
      match openJWS J body with
      | .error _ => some s
      | .ok (text, hdr) =>
          let (rows, answer) := consumeNonce hdr.nonce fault s.rows
          let verdict :=
            verifyJWS J S path allowJWK body (fun _ => answer) fun _ => found
          some
            { s with
              rows
              log := s.log ++ consumed hdr.nonce s.rows rows answer ++
                if verdict.isOk then [.accepted text] else [] }

/-- Any sequence of calls, from the empty table. -/
def calls : Automaton Nonces Call where
  init s := s.rows = [] ∧ s.drawn = [] ∧ s.log = []
  exec := exec J S

/-- `newID` never draws the same value again. -/
def fresh : Guard Nonces Call := fun s c =>
  match c with
  | .issue n _ _ _ => n ∉ s.drawn
  | _ => True

instance (s : Nonces) (c : Call) : Decidable (fresh s c) := by
  unfold fresh
  split <;> infer_instance

/-- The nonces issued, in order. -/
def issuedValues (log : List Event) : List String :=
  log.filterMap fun e =>
    match e with
    | .issued v _ => some v
    | _ => none

/-- The nonces `ConsumeNonce` deleted. -/
def spentValues (log : List Event) : List String :=
  log.filterMap fun e =>
    match e with
    | .spent v => some v
    | _ => none

/-- The nonces `ConsumeNonce` accepted. -/
def answeredValues (log : List Event) : List String :=
  log.filterMap fun e =>
    match e with
    | .answered v => some v
    | _ => none

/-- The signed bodies `verifyJWS` accepted. -/
def acceptedBodies (log : List Event) : List String :=
  log.filterMap fun e =>
    match e with
    | .accepted b => some b
    | _ => none

/-- How many nonces were issued after a value. -/
def issuedAfter (v : String) (log : List Event) : Nat :=
  (issuedValues log).length - ((issuedValues log).idxOf v + 1)

section Histories

variable (log es : List Event)

@[simp] theorem issuedValues_append :
    issuedValues (log ++ es) = issuedValues log ++ issuedValues es := by
  simp [issuedValues]

@[simp] theorem spentValues_append :
    spentValues (log ++ es) = spentValues log ++ spentValues es := by
  simp [spentValues]

@[simp] theorem answeredValues_append :
    answeredValues (log ++ es) = answeredValues log ++ answeredValues es := by
  simp [answeredValues]

@[simp] theorem acceptedBodies_append :
    acceptedBodies (log ++ es) = acceptedBodies log ++ acceptedBodies es := by
  simp [acceptedBodies]

variable (n : String) (before after : List NonceRow) (answer : Option Bool)

@[simp] theorem issuedValues_consumed :
    issuedValues (consumed n before after answer) = [] := by
  simp only [consumed]
  split <;> split <;> rfl

@[simp] theorem spentValues_consumed :
    spentValues (consumed n before after answer) =
      if after.length < before.length then [n] else [] := by
  simp only [consumed]
  split <;> split <;> rfl

@[simp] theorem answeredValues_consumed :
    answeredValues (consumed n before after answer) =
      if answer = some true then [n] else [] := by
  simp only [consumed]
  split <;> split <;> rfl

@[simp] theorem acceptedBodies_consumed :
    acceptedBodies (consumed n before after answer) = [] := by
  simp only [consumed]
  split <;> split <;> rfl

variable {log}

theorem mem_issuedValues {v : String} :
    v ∈ issuedValues log ↔ ∃ t, .issued v t ∈ log := by
  simp only [issuedValues, List.mem_filterMap]
  constructor
  · rintro ⟨e, he, hv⟩
    cases e with
    | issued w t =>
        simp only [Option.some.injEq] at hv
        exact ⟨t, hv ▸ he⟩
    | spent w => simp at hv
    | answered w => simp at hv
    | accepted b => simp at hv
  · rintro ⟨t, ht⟩
    exact ⟨_, ht, rfl⟩

/-- One more nonce issued. -/
theorem issuedAfter_issued
    {v : String}
    (hv : v ∈ issuedValues log)
    (w : String)
    (t : Nat) :
    issuedAfter v (log ++ [.issued w t]) = issuedAfter v log + 1 := by
  have hlt : (issuedValues log).idxOf v < (issuedValues log).length :=
    List.idxOf_lt_length_of_mem hv
  have hone : issuedValues [.issued w t] = [w] := by rfl
  simp only [issuedAfter, issuedValues_append, hone, List.idxOf_append_of_mem hv,
    List.length_append, List.length_singleton]
  omega

end Histories

section Tables

/-- A strictly increasing list of numbers inside a window is no longer than the
window. -/
theorem length_le_of_window
    {l : List Nat}
    (hl : l.Pairwise (· < ·))
    (a n : Nat)
    (hwindow : ∀ x ∈ l, a ≤ x ∧ x < a + n) :
    l.length ≤ n := by
  have hnodup : l.Nodup := hl.imp fun h => Nat.ne_of_lt h
  have hsub : l ⊆ List.range' a n := by
    intro x hx
    rw [List.mem_range'_1]
    exact hwindow x hx
  simpa using (List.subperm_of_subset hnodup hsub).length_le

variable {rows : List NonceRow}

theorem maxRowid_eq_some
    {m : Nat}
    (h : maxRowid rows = some m) :
    (∃ r ∈ rows, r.rowid = m) ∧ ∀ r ∈ rows, r.rowid ≤ m := by
  rw [maxRowid, List.max?_eq_some_iff] at h
  simpa using h

theorem maxRowid_eq_none :
    maxRowid rows = none ↔ rows = [] := by
  simp [maxRowid]

/-- A new id is above all ids in use, and by one only. -/
theorem lt_nextRowid
    {r : NonceRow}
    (hr : r ∈ rows) :
    r.rowid < nextRowid rows ∧ ∃ r' ∈ rows, nextRowid rows = r'.rowid + 1 := by
  unfold nextRowid
  split
  · rename_i hmax
    rw [maxRowid_eq_none.mp hmax] at hr
    simp at hr
  · rename_i m hmax
    obtain ⟨⟨r', hr', hm⟩, hle⟩ := maxRowid_eq_some hmax
    exact ⟨Nat.lt_succ_of_le (hle r hr), r', hr', by rw [hm]⟩

/-- After the cap fewer than `maxNonces` rows are left. -/
theorem length_deleteBeyond
    (horder : rows.Pairwise fun r r' => r.rowid < r'.rowid)
    (keep : Nat) :
    (deleteBeyond keep rows).length ≤ keep := by
  unfold deleteBeyond
  split
  · rename_i hmax
    simp [maxRowid_eq_none.mp hmax]
  · rename_i m hmax
    have hle := (maxRowid_eq_some hmax).2
    rw [← List.length_map NonceRow.rowid]
    refine length_le_of_window ?_ (m + 1 - keep) keep ?_
    · rw [List.pairwise_map]
      exact horder.filter _
    · intro x hx
      obtain ⟨r, hr, rfl⟩ := List.mem_map.mp hx
      simp only [List.mem_filter, Bool.not_eq_true', decide_eq_false_iff_not] at hr
      have hm := hle r hr.1
      omega

/-- `ConsumeNonce` leaves the table alone, or takes the value out of it; it
answers only for a value it took out. -/
theorem consumeNonce_cases (n : String) (fault : Option ConsumeFault) (rows : List NonceRow) :
    consumeNonce n fault rows = (rows, none) ∨
      (consumeNonce n fault rows).1 = (rows.filter fun r => r.value != n) ∧
        ((consumeNonce n fault rows).2 = some true → ∃ r ∈ rows, r.value = n) := by
  rcases fault with _ | _ | _
  · refine .inr ⟨rfl, ?_⟩
    intro hanswer
    simpa [consumeNonce, List.countP_pos_iff] using hanswer
  · exact .inl rfl
  · exact .inr ⟨rfl, by simp [consumeNonce]⟩

/-- Taking a value out shortens the table exactly when it was in it. -/
theorem length_filter_value (n : String) :
    (rows.filter fun r => r.value != n).length < rows.length ↔ ∃ r ∈ rows, r.value = n := by
  rw [List.length_filter_lt_length_iff_exists]
  simp

/-- What the two deletions of `IssueNonce` leave. -/
def surviving (t₁ : Nat) (run : IssueRun) (rows : List NonceRow) : List NonceRow :=
  if !run.age then rows
  else if !run.cap then deleteOlder (gcCutoff t₁ nonceTTL) rows
  else deleteBeyond (maxNonces - 1) (deleteOlder (gcCutoff t₁ nonceTTL) rows)

/-- `IssueNonce` fails on what is left, or adds one row to it. -/
theorem issueNonce_cases (n : String) (t₁ t₂ : Nat) (run : IssueRun) (rows : List NonceRow) :
    issueNonce n t₁ t₂ run rows = (surviving t₁ run rows, none) ∨
      run.age = true ∧ run.cap = true ∧
        issueNonce n t₁ t₂ run rows =
          (surviving t₁ run rows ++ [⟨nextRowid (surviving t₁ run rows), n, unix t₂⟩],
            some n) := by
  obtain ⟨age, cap, insert⟩ := run
  cases age with
  | false => simp [issueNonce, surviving]
  | true =>
      cases cap with
      | false => simp [issueNonce, surviving]
      | true =>
          cases insert with
          | false => simp [issueNonce, surviving]
          | true =>
              simp only [issueNonce, surviving, insertNonce, Bool.not_true, Bool.false_eq_true,
                if_false, if_true]
              split
              · rename_i hnone
                split at hnone
                · exact .inl rfl
                · simp at hnone
              · rename_i rows' hsome
                split at hsome
                · simp at hsome
                · obtain rfl := Option.some.inj hsome
                  exact .inr ⟨trivial, trivial, rfl⟩

theorem surviving_sublist (t₁ : Nat) (run : IssueRun) (rows : List NonceRow) :
    (surviving t₁ run rows).Sublist rows := by
  have hcap : ∀ keep (l : List NonceRow), (deleteBeyond keep l).Sublist l := by
    intro keep l
    unfold deleteBeyond
    split
    · exact List.Sublist.refl l
    · exact List.filter_sublist
  unfold surviving
  split
  · exact List.Sublist.refl rows
  · split
    · exact List.filter_sublist
    · exact (hcap _ _).trans List.filter_sublist

/-- A row goes because of its age, or because the newest row is far away. -/
theorem dropped_of_surviving
    {t₁ : Nat}
    {run : IssueRun}
    {r : NonceRow}
    (hr : r ∈ rows)
    (hgone : r ∉ surviving t₁ run rows) :
    (r.created : Int) < gcCutoff t₁ nonceTTL ∨
      ∃ r' ∈ rows, r.rowid + (maxNonces - 1) ≤ r'.rowid := by
  by_cases hage : (r.created : Int) < gcCutoff t₁ nonceTTL
  · exact .inl hage
  have hyoung : r ∈ deleteOlder (gcCutoff t₁ nonceTTL) rows := by
    simpa [deleteOlder, hr] using hage
  refine .inr ?_
  unfold surviving at hgone
  split at hgone
  · exact absurd hr hgone
  · split at hgone
    · exact absurd hyoung hgone
    · unfold deleteBeyond at hgone
      split at hgone
      · exact absurd hyoung hgone
      · rename_i m hmax
        obtain ⟨⟨r', hr', rfl⟩, _⟩ := maxRowid_eq_some hmax
        refine ⟨r', List.mem_of_mem_filter hr', ?_⟩
        simp only [List.mem_filter, hyoung, true_and, Bool.not_eq_true',
          decide_eq_false_iff_not, not_not] at hgone
        simp only [maxNonces] at hgone ⊢
        omega

end Tables

/-- The nonce a signed body carries. -/
def nonceOf (body : String) : String :=
  match J.parseSigned body with
  | .ok [hdr] => hdr.nonce
  | _ => ""

/-- What holds of the table and the history between calls. -/
structure Sound (s : Nonces) : Prop where
  order : s.rows.Pairwise fun r r' => r.rowid < r'.rowid
  bound : s.rows.length ≤ maxNonces
  source : ∀ r ∈ s.rows, ∃ t, .issued r.value t ∈ s.log ∧ r.created = unix t
  unspent : ∀ r ∈ s.rows, r.value ∉ spentValues s.log
  /-- Between a row and the newest lie no more ids than nonces were issued. -/
  span : ∀ r ∈ s.rows, ∀ r' ∈ s.rows, r'.rowid ≤ r.rowid + issuedAfter r.value s.log
  issuedOnce : (issuedValues s.log).Nodup
  issuedDrawn : ∀ v ∈ issuedValues s.log, v ∈ s.drawn
  spentIssued : ∀ v ∈ spentValues s.log, v ∈ issuedValues s.log
  spentOnce : (spentValues s.log).Nodup
  answered : (answeredValues s.log).Sublist (spentValues s.log)
  accepted : ((acceptedBodies s.log).map (nonceOf J)).Sublist (answeredValues s.log)

namespace Sound

variable {J S}
variable {s : Nonces}

theorem of_init (h : (calls J S).init s) :
    Sound J s := by
  obtain ⟨clock, rows, drawn, log⟩ := s
  obtain ⟨rfl, rfl, rfl⟩ := h
  constructor <;> simp [issuedValues, spentValues, answeredValues, acceptedBodies]

theorem value_issued
    (h : Sound J s)
    {r : NonceRow}
    (hr : r ∈ s.rows) :
    r.value ∈ issuedValues s.log := by
  obtain ⟨t, ht, _⟩ := h.source r hr
  exact mem_issuedValues.mpr ⟨t, ht⟩

/-- Fewer rows, another reading of the clock and one more value drawn. -/
theorem fewer
    (h : Sound J s)
    {rows : List NonceRow}
    (hrows : rows.Sublist s.rows)
    (clock : Nat)
    (n : String) :
    Sound J ⟨rows, clock, s.drawn ++ [n], s.log⟩ where
  order := h.order.sublist hrows
  bound := Nat.le_trans hrows.length_le h.bound
  source r hr := h.source r (hrows.subset hr)
  unspent r hr := h.unspent r (hrows.subset hr)
  span r hr r' hr' := h.span r (hrows.subset hr) r' (hrows.subset hr')
  issuedOnce := h.issuedOnce
  issuedDrawn v hv := List.mem_append_left _ (h.issuedDrawn v hv)
  spentIssued := h.spentIssued
  spentOnce := h.spentOnce
  answered := h.answered
  accepted := h.accepted

/-- A nonce never drawn before goes into the table. -/
theorem insert
    (h : Sound J s)
    {n : String}
    (hn : n ∉ s.drawn)
    (hroom : s.rows.length < maxNonces)
    (t : Nat) :
    Sound J
      ⟨s.rows ++ [⟨nextRowid s.rows, n, unix t⟩], t, s.drawn ++ [n],
        s.log ++ [.issued n t]⟩ := by
  have hissued : issuedValues [.issued n t] = [n] := by rfl
  have hspent : spentValues [.issued n t] = [] := by rfl
  have hanswered : answeredValues [.issued n t] = [] := by rfl
  have haccepted : acceptedBodies [.issued n t] = [] := by rfl
  have hnew : n ∉ issuedValues s.log := fun hmem => hn (h.issuedDrawn n hmem)
  refine
    { order := ?_, bound := ?_, source := ?_, unspent := ?_, span := ?_, issuedOnce := ?_
      issuedDrawn := ?_, spentIssued := ?_, spentOnce := ?_, answered := ?_, accepted := ?_ }
  · rw [List.pairwise_append]
    refine ⟨h.order, List.pairwise_singleton _ _, ?_⟩
    intro r hr r' hr'
    rw [List.mem_singleton] at hr'
    subst hr'
    exact (lt_nextRowid hr).1
  · simp only [List.length_append, List.length_singleton]
    omega
  · intro r hr
    rcases List.mem_append.mp hr with hr | hr
    · obtain ⟨t', ht', hcreated⟩ := h.source r hr
      exact ⟨t', List.mem_append_left _ ht', hcreated⟩
    · rw [List.mem_singleton] at hr
      subst hr
      exact ⟨t, by simp, rfl⟩
  · intro r hr
    simp only [spentValues_append, hspent, List.append_nil]
    rcases List.mem_append.mp hr with hr | hr
    · exact h.unspent r hr
    · rw [List.mem_singleton] at hr
      subst hr
      exact fun hmem => hnew (h.spentIssued n hmem)
  · intro r hr r' hr'
    rcases List.mem_append.mp hr with hr | hr
    · rw [issuedAfter_issued (h.value_issued hr)]
      rcases List.mem_append.mp hr' with hr' | hr'
      · have := h.span r hr r' hr'
        omega
      · -- the new id is one past an id that was in reach of `r`
        rw [List.mem_singleton] at hr'
        subst hr'
        obtain ⟨_, r'', hr'', hnext⟩ := lt_nextRowid hr
        have := h.span r hr r'' hr''
        simp only [hnext]
        omega
    · rw [List.mem_singleton] at hr
      subst hr
      rcases List.mem_append.mp hr' with hr' | hr'
      · have := (lt_nextRowid hr').1
        simp only
        omega
      · rw [List.mem_singleton] at hr'
        subst hr'
        exact Nat.le_add_right _ _
  · simp only [issuedValues_append, hissued]
    rw [List.nodup_append]
    refine ⟨h.issuedOnce, List.nodup_singleton n, ?_⟩
    intro v hv w hw
    rw [List.mem_singleton] at hw
    rintro rfl
    exact hnew (hw ▸ hv)
  · intro v hv
    simp only [issuedValues_append, hissued] at hv
    rcases List.mem_append.mp hv with hv | hv
    · exact List.mem_append_left _ (h.issuedDrawn v hv)
    · exact List.mem_append_right _ hv
  · intro v hv
    simp only [spentValues_append, hspent, List.append_nil] at hv
    simp only [issuedValues_append]
    exact List.mem_append_left _ (h.spentIssued v hv)
  · simpa [hspent] using h.spentOnce
  · simpa [hspent, hanswered] using h.answered
  · simpa [hanswered, haccepted] using h.accepted

/-- `IssueNonce`, whatever becomes of its statements. -/
theorem issue
    (h : Sound J s)
    {n : String}
    (hn : n ∉ s.drawn)
    (t₁ t₂ : Nat)
    (run : IssueRun) :
    Sound J
      ⟨(issueNonce n t₁ t₂ run s.rows).1, t₂, s.drawn ++ [n],
        s.log ++ (issueNonce n t₁ t₂ run s.rows).2.toList.map fun v => .issued v t₂⟩ := by
  have hsub := surviving_sublist t₁ run s.rows
  rcases issueNonce_cases n t₁ t₂ run s.rows with hfail | ⟨hage, hcap, hissue⟩
  · simpa [hfail] using h.fewer hsub t₂ n
  · have hroom : (surviving t₁ run s.rows).length < maxNonces := by
      have hle :
          (deleteBeyond (maxNonces - 1)
            (deleteOlder (gcCutoff t₁ nonceTTL) s.rows)).length ≤ maxNonces - 1 :=
        length_deleteBeyond (h.order.filter _) _
      simp only [surviving, hage, hcap, Bool.not_true, Bool.false_eq_true, if_false]
      exact Nat.lt_of_le_of_lt hle (by decide)
    have hrest : Sound J ⟨surviving t₁ run s.rows, t₂, s.drawn, s.log⟩ :=
      { h.fewer hsub t₂ n with issuedDrawn := h.issuedDrawn }
    simpa [hissue] using hrest.insert hn hroom t₂

/-- `ConsumeNonce`, and the acceptance of a signed body that carries the nonce
it answered for. -/
theorem consume
    (h : Sound J s)
    (n : String)
    (fault : Option ConsumeFault)
    (bodies : List String)
    (hbodies :
      (bodies.map (nonceOf J)).Sublist
        (if (consumeNonce n fault s.rows).2 = some true then [n] else [])) :
    Sound J
      { s with
        rows := (consumeNonce n fault s.rows).1
        log :=
          s.log ++
            (consumed n s.rows (consumeNonce n fault s.rows).1
                (consumeNonce n fault s.rows).2 ++
              bodies.map Event.accepted) } := by
  have hissued : issuedValues (bodies.map Event.accepted) = [] := by
    simp [issuedValues, List.filterMap_map]
  have hspent : spentValues (bodies.map Event.accepted) = [] := by
    simp [spentValues, List.filterMap_map]
  have hanswered : answeredValues (bodies.map Event.accepted) = [] := by
    simp [answeredValues, List.filterMap_map]
  have haccepted : acceptedBodies (bodies.map Event.accepted) = bodies := by
    simp [acceptedBodies, List.filterMap_map]
  rcases consumeNonce_cases n fault s.rows with hfail | ⟨hrows, hanswer⟩
  · -- the statement failed: nothing is answered, so nothing is accepted
    have hnil : bodies = [] := by simpa [hfail] using hbodies
    subst hnil
    simpa [hfail, consumed] using h
  generalize hans : (consumeNonce n fault s.rows).2 = answer at *
  rw [hrows]
  have hsub : (s.rows.filter fun r => r.value != n).Sublist s.rows := List.filter_sublist
  refine
    { order := h.order.sublist hsub, bound := Nat.le_trans hsub.length_le h.bound
      source := ?_, unspent := ?_, span := ?_, issuedOnce := ?_
      issuedDrawn := ?_, spentIssued := ?_, spentOnce := ?_, answered := ?_, accepted := ?_ }
  · intro r hr
    obtain ⟨t, ht, hcreated⟩ := h.source r (hsub.subset hr)
    exact ⟨t, List.mem_append_left _ ht, hcreated⟩
  · intro r hr hmem
    have hne : r.value ≠ n := by simpa using (List.mem_filter.mp hr).2
    simp only [spentValues_append, spentValues_consumed, hspent, List.append_nil] at hmem
    rcases List.mem_append.mp hmem with hmem | hmem
    · exact h.unspent r (hsub.subset hr) hmem
    · split at hmem
      · exact hne (List.mem_singleton.mp hmem)
      · simp at hmem
  · intro r hr r' hr'
    have := h.span r (hsub.subset hr) r' (hsub.subset hr')
    simpa [issuedAfter, hissued] using this
  · simpa [hissued] using h.issuedOnce
  · intro v hv
    exact h.issuedDrawn v (by simpa [hissued] using hv)
  · intro v hv
    simp only [spentValues_append, spentValues_consumed, hspent, List.append_nil] at hv
    simp only [issuedValues_append, issuedValues_consumed, hissued, List.append_nil]
    rcases List.mem_append.mp hv with hv | hv
    · exact h.spentIssued v hv
    · split at hv
      · rename_i hshort
        obtain ⟨r, hr, rfl⟩ := (length_filter_value n).mp hshort
        rw [List.mem_singleton] at hv
        exact hv ▸ h.value_issued hr
      · simp at hv
  · simp only [spentValues_append, spentValues_consumed, hspent, List.append_nil]
    split
    · rename_i hshort
      obtain ⟨r, hr, rfl⟩ := (length_filter_value n).mp hshort
      rw [List.nodup_append]
      refine ⟨h.spentOnce, List.nodup_singleton _, ?_⟩
      intro v hv w hw
      rw [List.mem_singleton] at hw
      rintro rfl
      exact h.unspent r hr (hw ▸ hv)
    · simpa using h.spentOnce
  · simp only [spentValues_append, spentValues_consumed, hspent, List.append_nil,
      answeredValues_append, answeredValues_consumed, hanswered]
    refine h.answered.append ?_
    split
    · rename_i hyes
      rw [if_pos ((length_filter_value n).mpr (hanswer hyes))]
    · exact List.nil_sublist _
  · simp only [answeredValues_append, answeredValues_consumed, hanswered, List.append_nil,
      acceptedBodies_append, acceptedBodies_consumed, haccepted, List.nil_append,
      List.map_append]
    exact h.accepted.append hbodies

/-- One call keeps the invariant. -/
theorem step
    (h : Sound J s)
    {c : Call}
    {s' : Nonces}
    (hfresh : fresh s c)
    (hx : exec J S s c = some s') :
    Sound J s' := by
  cases c with
  | issue n t₁ t₂ run =>
      simp only [exec] at hx
      split at hx
      · obtain rfl := Option.some.inj hx
        exact h.issue hfresh t₁ t₂ run
      · simp at hx
  | consume n fault =>
      simp only [exec, Option.some.injEq] at hx
      subst hx
      simpa using h.consume n fault [] (by simp)
  | verify path allowJWK body fault found =>
      simp only [exec] at hx
      split at hx
      · obtain rfl := Option.some.inj hx
        exact h
      · rename_i text hdr hopen
        obtain rfl := Option.some.inj hx
        simp only [List.append_assoc]
        split
        · rename_i hok
          refine h.consume hdr.nonce fault [text] ?_
          -- an accepted request has had its nonce answered for
          cases hverify :
              verifyJWS J S path allowJWK body
                (fun _ => (consumeNonce hdr.nonce fault s.rows).2) fun _ => found with
          | error p => simp [hverify, Except.isOk, Except.toBool] at hok
          | ok q =>
              obtain ⟨text', hdr', hopen', hanswer, _⟩ := verifyJWS_eq_ok hverify
              rw [hopen] at hopen'
              have heq : (text, hdr) = (text', hdr') := Except.ok.inj hopen'
              obtain ⟨rfl, rfl⟩ := Prod.mk.inj heq
              rw [if_pos hanswer]
              simp [nonceOf, (openJWS_eq_ok hopen).2.1]
        · exact h.consume hdr.nonce fault [] (by simp)

theorem of_reachable (hs : (calls J S).Reachable fresh s) :
    Sound J s :=
  hs.invariant (fun _ => of_init) fun _ _ _ h hfresh hx => h.step hfresh hx

/-- A nonce that an `IssueNonce` call takes out of the table while it is younger
than `nonceTTL` has at least `maxNonces - 1` nonces issued after it. -/
theorem dropped
    (h : Sound J s)
    {t₁ : Nat}
    {run : IssueRun}
    {r : NonceRow}
    (hr : r ∈ s.rows)
    (hgone : r ∉ surviving t₁ run s.rows)
    {t : Nat}
    (ht : .issued r.value t ∈ s.log)
    (honce : ∀ t', .issued r.value t' ∈ s.log → t' = t)
    (hyoung : t₁ < t + nonceTTL) :
    maxNonces - 1 ≤ issuedAfter r.value s.log := by
  rcases dropped_of_surviving hr hgone with hage | ⟨r', hr', hfar⟩
  · obtain ⟨t', ht', hcreated⟩ := h.source r hr
    obtain rfl := honce t' ht'
    exfalso
    have hcut : gcCutoff t₁ nonceTTL = ((t₁ : Int) - nonceTTL) / 1000000000 :=
      Int.fdiv_eq_ediv_of_nonneg _ (by omega)
    rw [hcreated, hcut, unix] at hage
    omega
  · have := h.span r hr r' hr'
    omega

/-- A nonce is issued at one time. -/
theorem issued_time
    (h : Sound J s)
    {v : String}
    {t t' : Nat}
    (ht : .issued v t ∈ s.log)
    (ht' : .issued v t' ∈ s.log) :
    t' = t := by
  have honce := h.issuedOnce
  obtain ⟨pre, post, hlog⟩ := List.append_of_mem ht
  rw [hlog] at honce ht'
  have hone : ∀ l, issuedValues (.issued v t :: l) = v :: issuedValues l := by
    intro l
    rfl
  simp only [issuedValues_append, hone, List.nodup_append, List.nodup_cons] at honce
  obtain ⟨_, ⟨hpost, _⟩, hpre⟩ := honce
  rcases List.mem_append.mp ht' with hmem | hmem
  · exact absurd rfl
      (hpre v (mem_issuedValues.mpr ⟨t', hmem⟩) v List.mem_cons_self)
  · rcases List.mem_cons.mp hmem with heq | hmem
    · exact (Event.issued.inj heq).2
    · exact absurd (mem_issuedValues.mpr ⟨t', hmem⟩) hpost

end Sound

/-- What `ConsumeNonce` takes out of the table is spent. -/
theorem mem_spentValues_of_removed
    {rows : List NonceRow}
    {n v : String}
    {fault : Option ConsumeFault}
    (hv : v ∈ rows.map NonceRow.value)
    (hout : v ∉ (consumeNonce n fault rows).1.map NonceRow.value) :
    v ∈ spentValues
      (consumed n rows (consumeNonce n fault rows).1 (consumeNonce n fault rows).2) := by
  obtain ⟨r, hr, rfl⟩ := List.mem_map.mp hv
  rcases consumeNonce_cases n fault rows with hfail | ⟨hrows, _⟩
  · rw [hfail] at hout
    exact absurd hv hout
  · rw [hrows] at hout ⊢
    have hn : r.value = n := by
      by_contra hne
      exact hout (List.mem_map.mpr ⟨r, by simp [hr, hne], rfl⟩)
    rw [spentValues_consumed, if_pos ((length_filter_value n).mpr ⟨r, hr, hn⟩)]
    simp [hn]

/-- Whatever is called in whatever order: each nonce is answered for at most
once and only if it was issued, no signed body is accepted twice, nor any other with
its nonce, the table holds at most `maxNonces` rows after every `IssueNonce`, and a
nonce leaves the table only by being consumed, by age, or with `maxNonces - 1` nonces
issued after it. -/
theorem replay_nonces
    {s : Nonces}
    (hs : (calls J S).Reachable fresh s) :
    (answeredValues s.log).Nodup ∧
      (∀ v ∈ answeredValues s.log, v ∈ issuedValues s.log) ∧
      (acceptedBodies s.log).Nodup ∧
      ((acceptedBodies s.log).map (nonceOf J)).Nodup ∧
      (∀ n t₁ t₂ run s',
        fresh s (.issue n t₁ t₂ run) →
        exec J S s (.issue n t₁ t₂ run) = some s' →
          s'.rows.length ≤ maxNonces ∧
          ∀ v t, .issued v t ∈ s.log → t₁ < t + nonceTTL →
            v ∈ s.rows.map NonceRow.value → v ∉ s'.rows.map NonceRow.value →
              maxNonces - 1 ≤ issuedAfter v s.log) ∧
      ∀ c s',
        (∀ n t₁ t₂ run, c ≠ .issue n t₁ t₂ run) →
        exec J S s c = some s' →
          ∀ v ∈ s.rows.map NonceRow.value, v ∉ s'.rows.map NonceRow.value →
            v ∈ spentValues s'.log := by
  have h := Sound.of_reachable hs
  have hanswered : (answeredValues s.log).Nodup := h.answered.nodup h.spentOnce
  have hnonces : ((acceptedBodies s.log).map (nonceOf J)).Nodup := h.accepted.nodup hanswered
  refine ⟨hanswered, ?_, hnonces.of_map _, hnonces, ?_, ?_⟩
  · intro v hv
    exact h.spentIssued v (h.answered.subset hv)
  · intro n t₁ t₂ run s' hfresh hx
    refine ⟨(h.step hfresh hx).bound, ?_⟩
    intro v t ht hyoung hv hgone
    obtain ⟨r, hr, rfl⟩ := List.mem_map.mp hv
    have hout : r ∉ surviving t₁ run s.rows := by
      intro hstays
      refine hgone (List.mem_map.mpr ⟨r, ?_, rfl⟩)
      simp only [exec] at hx
      split at hx
      · obtain rfl := Option.some.inj hx
        rcases issueNonce_cases n t₁ t₂ run s.rows with hfail | ⟨_, _, hissue⟩
        · simpa [hfail] using hstays
        · simp [hissue, hstays]
      · simp at hx
    exact h.dropped hr hout ht (fun t' ht' => h.issued_time ht ht') hyoung
  · intro c s' hc hx v hv hgone
    cases c with
    | issue n t₁ t₂ run => exact absurd rfl (hc n t₁ t₂ run)
    | consume n fault =>
        simp only [exec, Option.some.injEq] at hx
        subst hx
        simp only [spentValues_append]
        exact List.mem_append_right _ (mem_spentValues_of_removed hv hgone)
    | verify path allowJWK body fault found =>
        simp only [exec] at hx
        split at hx
        · obtain rfl := Option.some.inj hx
          exact absurd hv hgone
        · obtain rfl := Option.some.inj hx
          simp only [spentValues_append]
          exact List.mem_append_left _
            (List.mem_append_right _ (mem_spentValues_of_removed hv hgone))

/-- A reading of signed bodies that takes the body for its nonce. -/
def sampleJose : Jose Unit where
  parseSigned body := .ok [⟨body, some "/acme/new-order", some (), ""⟩]
  verify _ _ := some ""
  decodeKey _ := some ()
  encodeKey _ := some ""
  thumbprint _ := some ""

def sampleServer : Server :=
  ⟨"", id⟩

/-- A nonce is issued, pays for one request, and another is issued. -/
theorem replay_nonces_sample :
    ∃ s,
      (calls sampleJose sampleServer).Reachable fresh s ∧
      acceptedBodies s.log = ["a"] ∧
      (answeredValues s.log).Nodup ∧
      (∀ v ∈ answeredValues s.log, v ∈ issuedValues s.log) ∧
      ((acceptedBodies s.log).map (nonceOf sampleJose)).Nodup := by
  have hfollow :
      ((calls sampleJose sampleServer).follow fresh ⟨[], 0, [], []⟩
        [.issue "a" 5 5 ⟨true, true, true⟩,
          .verify "/acme/new-order" true (some "a") none none,
          .verify "/acme/new-order" true (some "a") none none,
          .issue "b" 7 7 ⟨true, true, true⟩]).any
        (fun s => decide (acceptedBodies s.log = ["a"])) = true := by
    decide
  obtain ⟨s, hrun, hcheck⟩ := Automaton.Run.exists_of_follow hfollow
  have hs : (calls sampleJose sampleServer).Reachable fresh s :=
    Automaton.Reachable.of_run ⟨rfl, rfl, rfl⟩ hrun
  obtain ⟨honce, hissued, _, hnonces, _⟩ := replay_nonces sampleJose sampleServer hs
  exact ⟨s, hs, of_decide_eq_true hcheck, honce, hissued, hnonces⟩

end Replay
end Acme
end Yca
