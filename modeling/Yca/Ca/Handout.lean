import Yca.Ca.Nonces
import Yca.Ca.Uniqueness

/-!
# The life of a nonce

A nonce that `get_nonce` hands out passes the check of `sign_csr` until it
expires, is consumed, or is replaced by a later `get_nonce` that found too
little of its life left.  The last can happen at once: what is handed out with
just enough life left is replaced in the next second.
-/

namespace Yca
namespace Ca

open Yca.Core

section Handout

/-- The commands that deal with enrollments. -/
def Request.enrolls : Request → Bool
  | .enroll _ => true
  | .getNonce _ => true
  | .signCsr .. => true
  | _ => false

/-- How long a nonce must still live to be handed out again. -/
def EnrollRow.minLeft (row : EnrollRow) : Nat :=
  max nonceRotateFloor (row.validity * minute * nonceRotatePct / 100)

/-- In this step a `get_nonce` for an identity succeeds with a nonce, having read
the clock at `t`: it leaves the pending one or draws another, which is never
empty. -/
def HandsOut (s : Store) (id value : String) (t : Nat) : Event → Prop
  | .commit .nothing =>
      t ≤ s.now ∧
        ∃ row, (s.db.enrollment.find? fun r => r.id == id) = some row ∧
          pendingNonce row t = some value
  | .commit (.nonce id' fresh issued) => id' = id ∧ fresh = value ∧ issued = t ∧ value ≠ ""
  | _ => False

/-- The events of a run that ended in `log`, which began with the log `before`,
include this one. -/
def Happened (before log : List Event) (e : Event) : Prop :=
  ∃ new, log = new ++ before ∧ e ∈ new

/-- A signing request for the identity went through. -/
def Consumed (id : String) (before log : List Event) : Prop :=
  ∃ cert issuer profile purpose,
    Happened before log (.commit (.issue cert issuer profile purpose (some id)))

/-- A `get_nonce` replaced the nonce of a row when less than the minimum of its
life was left. -/
def Replaced (row : EnrollRow) (before log : List Event) : Prop :=
  ∃ fresh t, Happened before log (.commit (.nonce row.id fresh t)) ∧
    row.issued + row.validity * minute < t + row.minLeft

/-- Every event but a read is logged. -/
theorem log_apply
    {e : Event}
    (he : e ≠ .quiet)
    (p : Pid)
    (s : Store) :
    (s.apply p e).log = e :: s.log := by
  cases e with
  | quiet => exact absurd rfl he
  | _ => rfl

/-- A leaf was recorded. -/
def Event.issues : Event → Bool
  | .commit (.issue ..) => true
  | _ => false

theorem Happened.apply
    {before : List Event}
    {s : Store}
    {x : Event}
    (h : Happened before s.log x)
    (p : Pid)
    (e : Event) :
    Happened before (s.apply p e).log x := by
  obtain ⟨new, hnew, hx⟩ := h
  by_cases he : e = .quiet
  · rw [he]
    exact ⟨new, hnew, hx⟩
  · refine ⟨e :: new, ?_, List.mem_cons_of_mem _ hx⟩
    rw [log_apply he, hnew]
    rfl

theorem Happened.self
    {before : List Event}
    {s : Store}
    {e : Event}
    (hlog : ∃ new, s.log = new ++ before)
    (he : e ≠ .quiet)
    (p : Pid) :
    Happened before (s.apply p e).log e := by
  obtain ⟨new, hnew⟩ := hlog
  refine ⟨e :: new, ?_, List.mem_cons_self⟩
  rw [log_apply he, hnew]
  rfl

/-- A nonce is handed out again only while enough of its life is left. -/
theorem pendingNonce_some
    {row : EnrollRow}
    {t : Nat}
    {value : String}
    (h : pendingNonce row t = some value) :
    row.nonce = value ∧ value ≠ "" ∧ row.consumed = false ∧
      t + row.minLeft ≤ row.issued + row.validity * minute := by
  simp only [pendingNonce] at h
  split at h
  · rename_i hcond
    obtain rfl := Option.some.inj h
    simp only [Bool.and_eq_true, bne_iff_ne, ne_eq, Bool.not_eq_true', decide_eq_true_eq] at hcond
    obtain ⟨⟨⟨hfilled, hconsumed⟩, hlives⟩, hleft⟩ := hcond
    refine ⟨rfl, hfilled, hconsumed, ?_⟩
    show t + max nonceRotateFloor (row.validity * minute * nonceRotatePct / 100) ≤ _
    omega
  · simp at h

/-- A pending nonce is replaced only when too little of its life is left. -/
theorem pendingNonce_none
    {row : EnrollRow}
    {t : Nat}
    (hfilled : row.nonce ≠ "")
    (hconsumed : row.consumed = false)
    (h : pendingNonce row t = none) :
    row.issued + row.validity * minute < t + row.minLeft := by
  simp only [pendingNonce] at h
  split at h
  · simp at h
  · rename_i hcond
    simp only [Bool.and_eq_true, bne_iff_ne, ne_eq, Bool.not_eq_true', decide_eq_true_eq,
      hfilled, hconsumed, not_false_eq_true, true_and, not_and] at hcond
    have hpositive : 0 < row.minLeft := Nat.lt_of_lt_of_le (by decide) (Nat.le_max_left _ _)
    by_cases hlives : t < row.issued + row.validity * minute
    · have hleft := hcond hlives
      show _ < t + max nonceRotateFloor (row.validity * minute * nonceRotatePct / 100)
      omega
    · omega

variable {r : Rules} {p : Pid} {s : Store}

/-- Only `get_nonce` draws nonces: the identity had a row, and no nonce to hand
out again. -/
theorem row_of_drawn
    {inv : Store → Prop}
    {req : Request}
    {id fresh : String}
    {t : Nat}
    (h : Account (Shared r) p inv req s (.commit (.nonce id fresh t))) :
    ∃ row, (s.db.enrollment.find? fun r => r.id == id) = some row ∧ pendingNonce row t = none := by
  obtain ⟨id', _, begun, found, clock, row, drawn, hlock, hfound, hrow, hclock, ht, htx⟩ :=
    commit_cases h
  obtain ⟨hlock', _⟩ := hfound.calm.locked hlock
  have hto : Calm (Shared r) p found s := hclock.calm.trans ht.calm
  obtain ⟨_, hdb⟩ := hto.locked hlock'
  split at htx
  · simp at htx
  · rename_i hpending
    simp only [Event.commit.injEq, Tx.nonce.injEq] at htx
    obtain ⟨rfl, _, rfl⟩ := htx
    exact ⟨row, by rw [hdb]; exact hrow, hpending⟩

end Handout

section Standing

variable {r : Rules} {p : Pid} {s : Store} {id : String} {row : EnrollRow} {before : List Event}

/-- What became of the row of an identity since the log was `before`: its nonce
was consumed, it was replaced, or the row is as it was. -/
structure Standing (id : String) (row : EnrollRow) (before : List Event) (s : Store) : Prop where
  log : ∃ new, s.log = new ++ before
  row : Consumed id before s.log ∨ Replaced row before s.log ∨
    (s.db.enrollment.find? fun r => r.id == id) = some row

theorem Consumed.apply
    (h : Consumed id before s.log)
    (p : Pid)
    (e : Event) :
    Consumed id before (s.apply p e).log := by
  obtain ⟨cert, issuer, profile, purpose, h⟩ := h
  exact ⟨cert, issuer, profile, purpose, h.apply p e⟩

theorem Replaced.apply
    (h : Replaced row before s.log)
    (p : Pid)
    (e : Event) :
    Replaced row before (s.apply p e).log := by
  obtain ⟨fresh, t, h, hleft⟩ := h
  exact ⟨fresh, t, h.apply p e, hleft⟩

/-- The lookup of an identity whose row an update leaves alone. -/
theorem find?_update_other
    {rows : List EnrollRow}
    {q : EnrollRow → Bool}
    {f : EnrollRow → EnrollRow}
    (hf : ∀ r, (f r).id = r.id)
    (hrow : (rows.find? fun r => r.id == id) = some row)
    (hq : q row = false) :
    ((updateWhere q f rows).find? fun r => r.id == id) = some row := by
  rw [find?_updateWhere hf, hrow]
  simp [hq]

theorem extends_apply
    (h : ∃ new, s.log = new ++ before)
    (p : Pid)
    (e : Event) :
    ∃ new, (s.apply p e).log = new ++ before := by
  obtain ⟨new, hnew⟩ := h
  by_cases he : e = .quiet
  · rw [he]
    exact ⟨new, hnew⟩
  · exact ⟨e :: new, by rw [log_apply he, hnew]; rfl⟩

/-- A transaction leaves the row of an identity alone unless it consumes its
nonce or draws another. -/
theorem row_of_run
    {tx : Tx}
    {db : Db}
    (hrun : tx.run s.db = some db)
    (hrow : (s.db.enrollment.find? fun r => r.id == id) = some row) :
    (∃ cert issuer profile purpose, tx = .issue cert issuer profile purpose (some id)) ∨
      (∃ fresh t, tx = .nonce id fresh t) ∨
        (db.enrollment.find? fun r => r.id == id) = some row := by
  have hid : row.id = id := (mem_of_find?_key hrow).2
  rw [run_enrollment hrun]
  cases tx with
  | issue cert issuer profile purpose other =>
      by_cases heq : other = some id
      · left
        exact ⟨cert, issuer, profile, purpose, by rw [heq]⟩
      · right
        right
        refine find?_update_other (fun _ => rfl) hrow ?_
        rw [hid]
        simpa using heq
  | nonce other fresh t =>
      by_cases heq : other = id
      · right
        left
        exact ⟨fresh, t, by rw [heq]⟩
      · right
        right
        refine find?_update_other (fun _ => rfl) hrow ?_
        rw [hid]
        simpa using Ne.symm heq
  | enroll other created =>
      right
      right
      show List.find? _ (s.db.enrollment ++ _) = some row
      rw [List.find?_append, hrow]
      rfl
  | _ =>
      right
      right
      exact hrow

/-- One event: only a signing request of the identity consumes its nonce, and
only a `get_nonce` that may replace it does. -/
theorem Standing.event
    {req : Request}
    {e : Event}
    (h : Standing id row before s)
    (hpending : row.nonce ≠ "" ∧ row.consumed = false)
    (hmeets : Meets r p s e)
    (haccount : Account (Shared r) p (fun _ => True) req s e) :
    Standing id row before (s.apply p e) := by
  refine ⟨extends_apply h.log p e, ?_⟩
  rcases h.row with hconsumed | hreplaced | hrow
  · left
    exact hconsumed.apply p e
  · right
    left
    exact hreplaced.apply p e
  · by_cases he : e.commits = true
    · cases e with
      | commit tx =>
          obtain ⟨db, hdb⟩ := Option.isSome_iff_exists.mp hmeets.2.1
          have hself := Happened.self (e := .commit tx) h.log (by simp) p
          rcases row_of_run hdb hrow with ⟨_, _, _, _, rfl⟩ | ⟨fresh, t, rfl⟩ | hsame
          · left
            exact ⟨_, _, _, _, hself⟩
          · right
            left
            obtain ⟨found, hfound, hnone⟩ := row_of_drawn haccount
            obtain rfl : found = row := Option.some.inj (hfound.symm.trans hrow)
            obtain rfl : found.id = id := (mem_of_find?_key hrow).2
            exact ⟨fresh, t, hself, pendingNonce_none hpending.1 hpending.2 hnone⟩
          · right
            right
            rw [apply_commit p hdb]
            exact hsame
      | _ => simp [Event.commits] at he
    · right
      right
      rw [enrollment_apply (by simpa using he) p s]
      exact hrow

/-- The row a `get_nonce` leaves behind: its nonce is the one handed out, and
enough of its life is left. -/
theorem HandsOut.leaves
    {value : String}
    {t : Nat}
    {e : Event}
    (h : HandsOut s id value t e)
    (hrow : ∃ row, (s.db.enrollment.find? fun r => r.id == id) = some row) :
    ∃ row, ((s.apply p e).db.enrollment.find? fun r => r.id == id) = some row ∧
      row.nonce = value ∧ value ≠ "" ∧ row.consumed = false ∧
        t + row.minLeft ≤ row.issued + row.validity * minute := by
  cases e with
  | commit tx =>
      cases tx with
      | nothing =>
          obtain ⟨_, row, hfound, hpending⟩ := h
          exact ⟨row, hfound, pendingNonce_some hpending⟩
      | nonce other fresh issued =>
          obtain ⟨rfl, rfl, rfl, hfilled⟩ := h
          obtain ⟨row, hrow⟩ := hrow
          have hid : row.id = other := (mem_of_find?_key hrow).2
          have hnew : ((s.apply p (.commit (.nonce other fresh issued))).db.enrollment.find?
              fun r => r.id == other) = some { row with
                nonce := fresh, issued := issued, validity := maxNonceValidity,
                consumed := false } := by
            show List.find? _ (updateWhere _ _ s.db.enrollment) = _
            rw [find?_updateWhere (f := fun row : EnrollRow => { row with
              nonce := fresh, issued := issued, validity := maxNonceValidity,
              consumed := false }) (fun _ => rfl), hrow]
            simp [hid]
          refine ⟨_, hnew, rfl, hfilled, rfl, ?_⟩
          show issued + max nonceRotateFloor (maxNonceValidity * minute * nonceRotatePct / 100) ≤
            issued + maxNonceValidity * minute
          exact Nat.add_le_add_left (by decide) _
      | _ => exact h.elim
  | _ => exact h.elim

/-- A `get_nonce` that hands out a nonce has a row for its identity. -/
theorem row_of_handsOut
    {value : String}
    {t : Nat}
    {e : Event}
    (haccount : Account (Shared r) p (fun _ => True) (.getNonce id) s e)
    (h : HandsOut s id value t e) :
    ∃ row, (s.db.enrollment.find? fun r => r.id == id) = some row := by
  cases e with
  | commit tx =>
      cases tx with
      | nothing =>
          obtain ⟨_, row, hfound, _⟩ := h
          exact ⟨row, hfound⟩
      | nonce other fresh issued =>
          obtain ⟨rfl, _⟩ := h
          obtain ⟨row, hfound, _⟩ := row_of_drawn haccount
          exact ⟨row, hfound⟩
      | _ => exact h.elim
  | _ => exact h.elim

/-- A row with the nonce passes the check until it expires. -/
theorem passes_of_row
    {value : String}
    (hrow : (s.db.enrollment.find? fun r => r.id == id) = some row)
    (hvalue : row.nonce = value)
    (hfilled : value ≠ "")
    (hconsumed : row.consumed = false)
    (hlives : s.now < row.issued + row.validity * minute) :
    nonceRejected s.db id value s.now = false := by
  unfold nonceRejected
  rw [hrow]
  subst hvalue
  simp [hfilled, hconsumed]
  omega

end Standing

section Runs

/-- In every interleaving of the commands a nonce that `get_nonce` handed out at
`t` passes the check for its identity until a minute later, unless a signing
request consumed it or a `get_nonce` replaced it that found less than the
minimum of its life left. -/
theorem nonce_passes_until_replaced
    {admits : Request → Prop}
    {w w' u : World Store (Request × Command)}
    {as : List (Action Choice Request Outside)}
    (hw : (ycaCalls.system Initialised).Reachable (Rules.free.calls admits) w)
    {p : Pid}
    {id value : String}
    {t : Nat}
    {e : Event}
    (he : machine.Emits start (Rules.free.calls admits) w p (.getNonce id) e w')
    (hout : HandsOut w.shared id value t e)
    (hrun : (ycaCalls.system Initialised).Run (Rules.free.calls admits) w' as u)
    (hclock : u.shared.now < t + nonceRotateFloor) :
    ∃ row, (w'.shared.db.enrollment.find? fun r => r.id == id) = some row ∧
      row.nonce = value ∧
      (nonceRejected u.shared.db id value u.shared.now = false ∨
        Consumed id w'.shared.log u.shared.log ∨
        Replaced row w'.shared.log u.shared.log) := by
  have hadmits : ∀ req, admits req → Rules.free.Admits req :=
    fun req _ => Rules.free_admits req
  obtain ⟨_, hmeets, haccount⟩ := call_emitted hadmits hw he
  obtain ⟨row, hrow, hvalue, hfilled, hconsumed, hleft⟩ :=
    hout.leaves (p := p) (row_of_handsOut haccount hout)
  have hshared : w'.shared = w.shared.apply p e := he.shared
  rw [← hshared] at hrow
  refine ⟨row, hrow, hvalue, ?_⟩
  obtain ⟨k, hG, hx⟩ := he.step
  have hstanding : Standing id row w'.shared.log u.shared := by
    refine calls_stable hadmits (P := Standing id row w'.shared.log) ?_ (hw.step hG hx) hrun
      ⟨⟨[], rfl⟩, Or.inr (Or.inr hrow)⟩
    intro s s' hs hmove
    refine keeps_of_calls ?_ ?_ hs hmove
    · intro s p req e hs _ hmeets haccount
      exact hs.event ⟨by rw [hvalue]; exact hfilled, hconsumed⟩ hmeets haccount
    · intro s s' hs hdb _ _ hlog _
      refine ⟨by rw [hlog]; exact hs.log, ?_⟩
      rw [hlog, hdb]
      exact hs.row
  rcases hstanding.row with hspent | hreplaced | hstill
  · right
    left
    exact hspent
  · right
    right
    exact hreplaced
  · left
    refine passes_of_row hstill hvalue hfilled hconsumed ?_
    have hfloor : nonceRotateFloor ≤ row.minLeft := Nat.le_max_left _ _
    omega

/-- An identity is enrolled and draws a nonce; four minutes later its next call
is about to commit. -/
def pendingLabels : List (Action Choice Request Outside) :=
  [.spawn 1 (.enroll "c")] ++ acts 1 4 (sampleChoice 31) ++
    [.spawn 2 (.getNonce "c")] ++ acts 2 5 (nonceChoice 32 "n1") ++
    [.env (.tick 240), .spawn 3 (.getNonce "c")] ++ acts 3 4 (sampleChoice 33)

/-- One second after that call another one draws a nonce. -/
def rotationLabels : List (Action Choice Request Outside) :=
  [.env (.tick 1), .spawn 4 (.getNonce "c")] ++ acts 4 5 (nonceChoice 34 "n2")

/-- The call hands the pending nonce out with exactly a minute of its life left;
a second later the nonce is replaced. -/
theorem rotated_in_a_second :
    ∃ w w' u as,
      (ycaCalls.system Initialised).Reachable
        (Rules.free.calls fun req => req.enrolls = true) w ∧
      machine.Emits start (Rules.free.calls fun req => req.enrolls = true) w 3
        (.getNonce "c") (.commit .nothing) w' ∧
      HandsOut w.shared "c" "n1" 1240 (.commit .nothing) ∧
      (ycaCalls.system Initialised).Run
        (Rules.free.calls fun req => req.enrolls = true) w' as u ∧
      u.shared.now = 1241 ∧
      nonceRejected u.shared.db "c" "n1" u.shared.now = true ∧
      ¬ Consumed "c" w'.shared.log u.shared.log := by
  have h :
      ((ycaCalls.system Initialised).follow (Rules.free.calls fun req => req.enrolls = true)
        (World.idle sampleStore) pendingLabels).any
        (fun w =>
          (w.procs 3).map Prod.fst == some (.getNonce "c") &&
            ((w.procs 3).bind fun c => c.2.event (sampleChoice 33) w.shared) ==
              some (.commit .nothing) &&
            w.shared.now == 1240 &&
            ((w.shared.db.enrollment.find? fun r => r.id == "c").bind fun row =>
              pendingNonce row 1240) == some "n1" &&
            decide (Rules.free.calls (fun req => req.enrolls = true) w
              (.act 3 (sampleChoice 33))) &&
            ((ycaCalls.system Initialised).exec w (.act 3 (sampleChoice 33))).any fun w' =>
              ((ycaCalls.system Initialised).follow
                (Rules.free.calls fun req => req.enrolls = true) w' rotationLabels).any fun u =>
                u.shared.now == 1241 &&
                  nonceRejected u.shared.db "c" "n1" u.shared.now &&
                  u.shared.log.all fun e => !e.issues) = true := by
    decide
  obtain ⟨w, hrun, hcheck⟩ := Automaton.Run.exists_of_follow h
  simp only [Bool.and_eq_true, beq_iff_eq, decide_eq_true_eq, Option.any_eq_true,
    List.all_eq_true, Bool.not_eq_true'] at hcheck
  obtain ⟨⟨⟨⟨⟨hreq, hevent⟩, hnow⟩, hpending⟩, hG⟩, w', hx, u, hfollow, ⟨hu, hrejected⟩, hissues⟩ :=
    hcheck
  refine ⟨w, w', u, rotationLabels, ?_, Machine.Emits.of_event hreq hevent hG hx, ?_,
    Automaton.Run.of_follow hfollow, hu, hrejected, ?_⟩
  · exact Automaton.Reachable.of_run
      (M := ycaCalls.system Initialised) ⟨sampleStore_initialised, World.idle_quiet _⟩ hrun
  · obtain ⟨row, hrow, hvalue⟩ := Option.bind_eq_some_iff.mp hpending
    exact ⟨Nat.le_of_eq hnow.symm, row, hrow, hvalue⟩
  · rintro ⟨_, _, _, _, new, hnew, hmem⟩
    have hissued := hissues _ (by rw [hnew]; exact List.mem_append_left _ hmem)
    simp [Event.issues] at hissued

theorem nonce_passes_until_replaced_sample :
    ∃ w' u : World Store (Request × Command), ∃ row,
      row.nonce = "n1" ∧ Replaced row w'.shared.log u.shared.log := by
  obtain ⟨w, w', u, as, hw, he, hout, hrun, hu, hrejected, hunused⟩ := rotated_in_a_second
  obtain ⟨row, _, hvalue, hpasses | hconsumed | hreplaced⟩ :=
    nonce_passes_until_replaced hw he hout hrun (by rw [hu]; decide)
  · rw [hrejected] at hpasses
    simp at hpasses
  · exact absurd hconsumed hunused
  · exact ⟨w', u, row, hvalue, hreplaced⟩

/-- A nonce that was just handed out can fail the check a second later though
nobody used it. -/
theorem nonce_fails_within_a_minute :
    ¬ ∀ (w w' u : World Store (Request × Command)) as p id value t e,
      (ycaCalls.system Initialised).Reachable
        (Rules.free.calls fun req => req.enrolls = true) w →
      machine.Emits start (Rules.free.calls fun req => req.enrolls = true) w p
        (.getNonce id) e w' →
      HandsOut w.shared id value t e →
      (ycaCalls.system Initialised).Run
        (Rules.free.calls fun req => req.enrolls = true) w' as u →
      u.shared.now < t + nonceRotateFloor →
      nonceRejected u.shared.db id value u.shared.now = false ∨
        Consumed id w'.shared.log u.shared.log := by
  intro hall
  obtain ⟨w, w', u, as, hw, he, hout, hrun, hu, hrejected, hunused⟩ := rotated_in_a_second
  rcases hall w w' u as 3 "c" "n1" 1240 _ hw he hout hrun (by rw [hu]; decide) with
    hpasses | hconsumed
  · rw [hrejected] at hpasses
    simp at hpasses
  · exact hunused hconsumed

end Runs

end Ca
end Yca
