import Yca.Acme.Requests

/-!
# Key rollover under concurrency

`handleKeyChange` compares the old key its request names with the account row
that `verifyJWS` read, and `SetAccountKey` writes the new key later, whatever the
row holds by then.  So two requests signed by the same key can both succeed, and
the second takes the account from a key it never named.

In runs in which no other change of an account's key comes between the two, the
changes of an account form a chain from the key it was registered with, and the
account authenticates with the last key of that chain only.
-/

namespace Yca
namespace Acme
namespace Registry

open Yca.Core

/-- A successful key change: the thumbprint named as the old key's, and the new
key. -/
structure Change where
  old : String
  jwk : String
  thumbprint : String
  deriving DecidableEq

/-- The key changes of an account, oldest first. -/
def changes (id : String) (log : List Entry) : List Change :=
  log.filterMap fun x =>
    match x with
    | .handler _ (.rolled row old jwk tp) _ =>
        if row.id = id then some ⟨old, jwk, tp⟩ else none
    | _ => none

/-- Each change replaces the key that the one before has set; keys are given by
thumbprint and text. -/
def Chain : String × String → List Change → String × String → Prop
  | key, [], last => key = last
  | key, c :: cs, last => c.old = key.1 ∧ Chain (c.thumbprint, c.jwk) cs last

/-- One more link. -/
theorem Chain.append
    {key last : String × String}
    {cs : List Change}
    (h : Chain key cs last)
    {c : Change}
    (hc : c.old = last.1) :
    Chain key (cs ++ [c]) (c.thumbprint, c.jwk) := by
  induction cs generalizing key with
  | nil =>
      obtain rfl : key = last := h
      exact ⟨hc, rfl⟩
  | cons d cs ih => exact ⟨h.1, ih h.2⟩

/-- When a key is written, the account still has the key its request was checked
against. -/
def current (s : Desk) : Event → Prop
  | .rolled row _ _ _ =>
      ∃ a ∈ s.tables.accounts, a.id = row.id ∧ a.thumbprint = row.thumbprint
  | _ => True

instance (s : Desk) (e : Event) : Decidable (current s e) := by
  unfold current
  split <;> infer_instance

section Changes

@[simp] theorem changes_append (id : String) (log es : List Entry) :
    changes id (log ++ es) = changes id log ++ changes id es := by
  simp [changes]

@[simp] theorem changes_operator (id : String) (x : Outside) :
    changes id [.operator x] = [] := by
  rfl

theorem changes_rolled
    (id : String)
    (p : Pid)
    (row : AccountRow)
    (old jwk tp : String)
    (time : Nat) :
    changes id [.handler p (.rolled row old jwk tp) time] =
      if row.id = id then [⟨old, jwk, tp⟩] else [] := by
  simp only [changes, List.filterMap_cons, List.filterMap_nil]
  split <;> split at * <;> simp_all

end Changes

variable {κ : Type} (C : Codec κ)

/-- The key of an account comes from its registration through its changes. -/
def Descends (log : List Entry) (a : AccountRow) : Prop :=
  Keyed C a.jwk a.thumbprint ∧
    ∃ p a₀ time late,
      .handler p (.registered a₀ time) late ∈ log ∧ a₀.id = a.id ∧
        Chain (a₀.thumbprint, a₀.jwk) (changes a.id log) (a.thumbprint, a.jwk)

/-- Every account descends, and only accounts have changed keys. -/
structure Chained (s : Desk) : Prop where
  descends : ∀ a ∈ s.tables.accounts, Descends C s.log a
  known : ∀ id, changes id s.log ≠ [] → ∃ a ∈ s.tables.accounts, a.id = id

section Steps

variable {C} {s : Desk}

/-- A step that adds no change of this account's key. -/
theorem Descends.extend
    {log : List Entry}
    {a : AccountRow}
    (h : Descends C log a)
    {es : List Entry}
    (hes : changes a.id es = []) :
    Descends C (log ++ es) a := by
  obtain ⟨hkeyed, p, a₀, time, late, hmem, hid, hchain⟩ := h
  refine ⟨hkeyed, p, a₀, time, late, List.mem_append_left _ hmem, hid, ?_⟩
  simpa [hes] using hchain

/-- The accounts keep their ids and keys. -/
theorem Chained.same
    (h : Chained C s)
    {accounts : List AccountRow}
    (hback : ∀ a ∈ accounts, ∃ b ∈ s.tables.accounts,
      b.id = a.id ∧ b.jwk = a.jwk ∧ b.thumbprint = a.thumbprint)
    (hforth : ∀ b ∈ s.tables.accounts, ∃ a ∈ accounts, a.id = b.id)
    {es : List Entry}
    (hes : ∀ id, changes id es = [])
    (creds : List EabRow)
    (now : Nat) :
    Chained C ⟨⟨accounts, creds⟩, now, s.log ++ es⟩ where
  descends a ha := by
    obtain ⟨b, hb, hid, hjwk, htp⟩ := hback a ha
    have hdescends : Descends C s.log a := by
      have := h.descends b hb
      simpa only [Descends, hid, hjwk, htp] using this
    exact hdescends.extend (hes a.id)
  known id hid := by
    obtain ⟨b, hb, rfl⟩ := h.known id (by simpa [hes] using hid)
    exact hforth b hb

/-- One step of a handler. -/
theorem Chained.step
    (h : Chained C s)
    (hids : UniqueKey AccountRow.id s.tables.accounts)
    {p : Pid}
    {e : Event}
    (hallow : current s e)
    (hterms : Terms C p s e) :
    Chained C (machine.apply p e s) := by
  have hstill : ∀ a ∈ s.tables.accounts, ∃ b ∈ s.tables.accounts,
      b.id = a.id ∧ b.jwk = a.jwk ∧ b.thumbprint = a.thumbprint :=
    fun a ha => ⟨a, ha, rfl, rfl, rfl⟩
  have hthere : ∀ b ∈ s.tables.accounts, ∃ a ∈ s.tables.accounts, a.id = b.id :=
    fun b hb => ⟨b, hb, rfl⟩
  cases e with
  | quiet => exact h.same hstill hthere (fun _ => rfl) _ _
  | answered a => exact h.same hstill hthere (fun _ => rfl) _ _
  | statusSet id status =>
      refine h.same ?_ ?_ (fun _ => rfl) _ _
      · intro a ha
        obtain ⟨b, hb, ⟨_, rfl⟩ | ⟨_, rfl⟩⟩ := mem_updateWhere.mp ha
        · exact ⟨b, hb, rfl, rfl, rfl⟩
        · exact ⟨a, hb, rfl, rfl, rfl⟩
      · intro b hb
        refine exists_mem_updateWhere ?_ hb
        intro r
        rfl
  | registered a time =>
      obtain ⟨_, hkeyed, _⟩ := hterms
      cases hinsert : insertAccountEAB a time s.tables with
      | error why =>
          simp only [machine, Event.run, hinsert]
          exact h.same hstill hthere (fun _ => rfl) _ _
      | ok t' =>
          obtain ⟨_, hfree, rfl⟩ := insertAccountEAB_eq_ok hinsert
          have hnone : changes a.id s.log = [] := by
            by_contra hsome
            obtain ⟨b, hb, hid⟩ := h.known a.id hsome
            exact (hfree b hb).1 hid
          have hquiet : ∀ id, changes id [.handler p (.registered a time) s.now] = [] :=
            fun _ => rfl
          simp only [machine, Event.run, hinsert]
          refine ⟨?_, ?_⟩
          · intro b hb
            rcases List.mem_append.mp hb with hb | hb
            · exact (h.descends b hb).extend (hquiet b.id)
            · rw [List.mem_singleton] at hb
              subst hb
              refine ⟨hkeyed, p, a, time, s.now, by simp, rfl, ?_⟩
              simp [hnone, hquiet, Chain]
          · intro id hid
            obtain ⟨b, hb, hbid⟩ := h.known id (by simpa [hquiet] using hid)
            exact ⟨b, List.mem_append_left _ hb, hbid⟩
  | rolled row old jwk tp =>
      obtain ⟨hold, hkeyed, hset⟩ := hterms
      obtain ⟨a, ha, haid, hatp⟩ := hallow
      obtain ⟨t', ht'⟩ := Option.isSome_iff_exists.mp hset
      obtain ⟨_, rfl⟩ := setAccountKey_eq_some ht'
      simp only [machine, Event.run, ht', Option.getD_some]
      refine ⟨?_, ?_⟩
      · intro b hb
        obtain ⟨c, hc, ⟨hcid, rfl⟩ | ⟨hcid, rfl⟩⟩ := mem_updateWhere.mp hb
        · -- the account whose key is replaced
          have hca : c = a := hids.eq hc ha ((beq_iff_eq.mp hcid).trans haid.symm)
          subst hca
          obtain ⟨_, q, a₀, time, late, hmem, hid, hchain⟩ := h.descends c hc
          refine ⟨hkeyed, q, a₀, time, late, List.mem_append_left _ hmem, hid, ?_⟩
          rw [changes_append, changes_rolled, if_pos haid.symm]
          exact hchain.append (hold.trans hatp.symm)
        · refine (h.descends b hc).extend ?_
          have hne : row.id ≠ b.id := by
            rintro heq
            simp [heq] at hcid
          rw [changes_rolled, if_neg hne]
      · intro id hid
        have hkept : ∀ b ∈ s.tables.accounts,
            ∃ b' ∈ updateWhere (fun a => a.id == row.id)
                (fun a => { a with jwk, thumbprint := tp }) s.tables.accounts,
              b'.id = b.id := by
          intro b hb
          refine exists_mem_updateWhere ?_ hb
          intro r
          rfl
        by_cases hrow : row.id = id
        · obtain ⟨b', hb', hid'⟩ := hkept a ha
          exact ⟨b', hb', hid'.trans (haid.trans hrow)⟩
        · rw [changes_append, changes_rolled, if_neg hrow, List.append_nil] at hid
          obtain ⟨b, hb, hbid⟩ := h.known id hid
          obtain ⟨b', hb', hid'⟩ := hkept b hb
          exact ⟨b', hb', hid'.trans hbid⟩

/-- The operator changes no key. -/
theorem Chained.env
    (h : Chained C s)
    {x : Outside}
    {s' : Desk}
    (hx : machine.env x s = some s') :
    Chained C s' := by
  have haccounts := accounts_env hx
  have hlog : s'.log = s.log ++ [.operator x] := by
    simp only [machine] at hx
    split at hx
    · obtain ⟨t, _, rfl⟩ := Option.map_eq_some_iff.mp hx
      rfl
    · simp at hx
  obtain ⟨⟨accounts, creds⟩, now, log⟩ := s'
  simp only at haccounts hlog
  rw [haccounts, hlog]
  exact h.same (fun a ha => ⟨a, ha, rfl, rfl, rfl⟩) (fun b hb => ⟨b, hb, rfl⟩)
    (fun _ => rfl) creds now

variable {S : Server}

theorem chained_of_reachable
    {w : World Desk Handler}
    (hw : ((program C S).system Fresh).Reachable (runs C S current) w) :
    Chained C w.shared := by
  obtain ⟨w₀, xs, h₀, hrun⟩ := hw
  have hw₀ := Automaton.Reachable.of_init (G := runs C S current) h₀
  refine Automaton.Run.stable (P := fun v => Chained C v.shared) (I := fun v =>
    ((program C S).system Fresh).Reachable (runs C S current) v)
    (fun v hv => hv) ?_ hw₀ hrun ?_
  · intro v x v' hv _ hG hx h
    cases x with
    | spawn p c =>
        obtain ⟨_, rfl⟩ := Program.exec_spawn hx
        exact h
    | act p k =>
        obtain ⟨e, hallow, hpromises, heq⟩ := handler_step hv hG hx
        rw [heq]
        exact h.step (consistent_of_reachable hv).ids hallow hpromises.terms
    | crash p =>
        obtain ⟨l, _, rfl⟩ := Program.exec_crash hx
        exact h
    | env x =>
        obtain ⟨s', hs', rfl⟩ := Program.exec_env hx
        exact h.env hs'
  · obtain ⟨⟨htables, hlog⟩, _⟩ := h₀
    refine ⟨?_, ?_⟩
    · intro a ha
      simp [htables] at ha
    · intro id hid
      simp [hlog, changes] at hid

end Steps

/-- The old key a change names is the account's key at that very step. -/
theorem old_key_at_roll
    {C : Codec κ}
    {S : Server}
    {w w' : World Desk Handler}
    (hw : ((program C S).system Fresh).Reachable (runs C S current) w)
    {p : Pid}
    {k : Choice}
    (hG : runs C S current w (.act p k))
    (hx : (program C S).exec w (.act p k) = some w')
    {row : AccountRow}
    {old jwk tp : String}
    (hlog : w'.shared.log = w.shared.log ++ [.handler p (.rolled row old jwk tp) w.shared.now]) :
    ∃ a ∈ w.shared.tables.accounts, a.id = row.id ∧ a.thumbprint = old := by
  obtain ⟨e, hallow, hpromises, heq⟩ := handler_step hw hG hx
  rw [heq] at hlog
  have hlast := List.append_cancel_left hlog
  simp only [List.cons.injEq, Entry.handler.injEq, true_and, and_true] at hlast
  subst hlast
  obtain ⟨a, ha, hid, htp⟩ := hallow
  exact ⟨a, ha, hid, htp.trans hpromises.terms.1.symm⟩

section Readings

/-- No key of the account was changed between the second step of the handler,
where `verifyJWS` read the row, and this change. -/
def untouched (past : List Desk) (s : Desk) : Event → Prop
  | .rolled row _ _ _ => ∀ read ∈ past[1]?, changes row.id s.log = changes row.id read.log
  | _ => True

instance (past : List Desk) (s : Desk) (e : Event) : Decidable (untouched past s e) := by
  unfold untouched
  split <;> infer_instance

/-- Runs in which each request has a process name of its own and no other key
change of the account comes between the reading of its row and a change. -/
def undisturbed (C : Codec κ) (S : Server) : (calls C S).Guarded
  | w, .spawn p _ => unused p w.shared.log = true
  | w, .act p k =>
      ∀ c ∈ w.procs p, ∀ e ∈ c.rest.event k w.shared, untouched c.past w.shared e
  | _, .crash _ => True
  | _, .env _ => True

instance
    (C : Codec κ)
    (S : Server)
    (w : World Desk (Recorded Desk Call Handler))
    (a : Action Choice Call Outside) :
    Decidable (undisturbed C S w a) :=
  match a with
  | .spawn p _ => inferInstanceAs (Decidable (unused p w.shared.log = true))
  | .act p k =>
      inferInstanceAs (Decidable
        (∀ c ∈ w.procs p, ∀ e ∈ c.rest.event k w.shared, untouched c.past w.shared e))
  | .crash _ => inferInstanceAs (Decidable True)
  | .env _ => inferInstanceAs (Decidable True)

/-- An account whose key was not changed since `t` still has the thumbprint that
was read there. -/
structure Kept (t s : Desk) : Prop where
  log : t.log <+: s.log
  row : ∀ id a, t.tables.accountByID id = some a → changes id s.log = changes id t.log →
    ∃ b, s.tables.accountByID id = some b ∧ b.thumbprint = a.thumbprint

/-- The changes of a longer history are no fewer. -/
theorem changes_still
    {id : String}
    {first log es : List Entry}
    (hlog : first <+: log)
    (h : changes id (log ++ es) = changes id first) :
    changes id log = changes id first ∧ changes id es = [] := by
  obtain ⟨more, rfl⟩ := hlog
  rw [List.append_assoc, changes_append, changes_append] at h
  have hnone : changes id more ++ changes id es = [] :=
    List.append_cancel_left (h.trans (List.append_nil _).symm)
  obtain ⟨hmore, hes⟩ := List.append_eq_nil_iff.mp hnone
  exact ⟨by rw [changes_append, hmore, List.append_nil], hes⟩

theorem Kept.event
    {t s : Desk}
    (h : Kept t s)
    (p : Pid)
    (e : Event) :
    Kept t (machine.apply p e s) := by
  refine ⟨h.log.trans (List.prefix_append _ _), ?_⟩
  intro id a ha hsame
  obtain ⟨hbefore, hnone⟩ := changes_still h.log hsame
  obtain ⟨b, hb, htp⟩ := h.row id a ha hbefore
  obtain ⟨b', hb', _, _, hkey⟩ := accountByID_run (S := ⟨"", fun _ => ""⟩) hb e
  refine ⟨b', hb', ?_⟩
  rcases hkey with hkept | ⟨row, old, jwk, hid, rfl⟩
  · exact hkept.trans htp
  · rw [changes_rolled, if_pos hid] at hnone
    simp at hnone

theorem Kept.env
    {t s s' : Desk}
    (h : Kept t s)
    {x : Outside}
    (hx : machine.env x s = some s') :
    Kept t s' := by
  have haccounts := accounts_env hx
  have hlog : s'.log = s.log ++ [.operator x] := by
    simp only [machine] at hx
    split at hx
    · obtain ⟨_, _, rfl⟩ := Option.map_eq_some_iff.mp hx
      rfl
    · simp at hx
  refine ⟨?_, ?_⟩
  · rw [hlog]
    exact h.log.trans (List.prefix_append _ _)
  · intro id a ha hsame
    rw [hlog, changes_append, changes_operator, List.append_nil] at hsame
    obtain ⟨b, hb, htp⟩ := h.row id a ha hsame
    refine ⟨b, ?_, htp⟩
    rw [← hb]
    simp only [Tables.accountByID, haccounts]

variable {C} {S : Server}

/-- A change that no other has come before is of the key that was read. -/
theorem current_of_untouched
    {w : World Desk (Recorded Desk Call Handler)}
    (hw : ((calls C S).system Fresh).Reachable (undisturbed C S) w)
    {p : Pid}
    {k : Choice}
    {c : Recorded Desk Call Handler}
    {e : Event}
    (hc : w.procs p = some c)
    (he : c.rest.event k w.shared = some e)
    (hallow : untouched c.past w.shared e) :
    current w.shared e := by
  cases e with
  | rolled row old jwk tp =>
      have hnone : ∀ {acct}, acct = none → ¬ (Event.rolled row old jwk tp).Confined S acct := by
        rintro acct rfl hconfined
        simpa using hconfined.row row old jwk tp rfl
      rcases confined (Machine.records_led hw hc) he with hnobody | ⟨read, q, hq, hconfined⟩
      · exact absurd hnobody (hnone rfl)
      · have hrow := (hq.accepts.found (hconfined.row row old jwk tp rfl)).1
        have hkept : Kept read w.shared :=
          Machine.records_past (fun s => ⟨List.prefix_refl _, fun _ a ha _ => ⟨a, ha, rfl⟩⟩)
            (fun _ _ q e h => h.event q e) (fun _ _ _ h => h) (fun _ _ _ _ h hx => h.env hx)
            hw hc (List.mem_of_getElem? hq.read)
        obtain ⟨b, hb, htp⟩ := hkept.row row.id row hrow (hallow read hq.read)
        obtain ⟨hmem, hid⟩ := mem_of_find?_key hb
        exact ⟨b, hmem, hid, htp⟩
  | _ => trivial

/-- So these runs are runs in which a key is written over the one that was
checked. -/
theorem undisturbed_current (C : Codec κ) (S : Server) :
    Refinement ((calls C S).system Fresh) (undisturbed C S)
      ((program C S).system Fresh) (runs C S current) (World.map Recorded.rest) where
  init w hw := by
    refine ⟨hw.1, fun p => ?_⟩
    rw [World.map_procs, hw.2 p]
    rfl
  step w a w' hw hG hx := by
    refine ⟨[a], Automaton.Run.cons ?_ ?_ (Automaton.Run.nil _)⟩
    · cases a with
      | spawn p r => exact hG
      | act p k =>
          intro l hl e he
          obtain ⟨c, hc, rfl⟩ := Option.map_eq_some_iff.mp hl
          exact current_of_untouched hw hc he (hG c hc e he)
      | crash p => trivial
      | env x => trivial
    · show (program C S).exec (w.map Recorded.rest) a = some (w'.map Recorded.rest)
      rw [(machine.records_rest (handle C S)).exec]
      exact congrArg (Option.map (World.map Recorded.rest)) hx

end Readings

/-- In runs in which no other key change of an account comes between the reading
of its row for a change and that change: the old key a change names is the
account's key when it is replaced, the changes of an account form a chain from the
key it was registered with to the key it has, and a request is verified for an
account under that last key only. -/
theorem key_changes
    (C : Codec κ)
    (S : Server)
    (hcodec : ∀ key jwk, C.encodeKey key = some jwk → C.decodeKey jwk = some key)
    {w : World Desk (Recorded Desk Call Handler)}
    (hw : ((calls C S).system Fresh).Reachable (undisturbed C S) w) :
    (∀ p k w', undisturbed C S w (.act p k) → (calls C S).exec w (.act p k) = some w' →
      ∀ row old jwk tp,
        w'.shared.log = w.shared.log ++ [.handler p (.rolled row old jwk tp) w.shared.now] →
          ∃ a ∈ w.shared.tables.accounts, a.id = row.id ∧ a.thumbprint = old) ∧
    (∀ a ∈ w.shared.tables.accounts,
      ∃ p a₀ time late,
        .handler p (.registered a₀ time) late ∈ w.shared.log ∧ a₀.id = a.id ∧
          Chain (a₀.thumbprint, a₀.jwk) (changes a.id w.shared.log)
            (a.thumbprint, a.jwk)) ∧
    ∀ path allowJWK body hdr q a,
      authenticate C.toJose S path allowJWK body hdr
          (fun id => some (w.shared.tables.accountByID id)) = .ok q →
        q.account = some a →
          C.verify body q.jwk = some q.payload ∧
            C.thumbprint q.jwk = some a.thumbprint ∧ a ∈ w.shared.tables.accounts := by
  have hrefines := undisturbed_current C S
  have hchained : Chained C w.shared := chained_of_reachable (hrefines.reachable hw)
  refine ⟨?_, ?_, ?_⟩
  · intro p k w' hG hx row old jwk tp hlog
    have hstep : (program C S).exec (w.map Recorded.rest) (.act p k) =
        some (w'.map Recorded.rest) := by
      rw [(machine.records_rest (handle C S)).exec, hx]
      rfl
    refine old_key_at_roll (hrefines.reachable hw) ?_ hstep hlog
    intro l hl e he
    obtain ⟨c, hc, rfl⟩ := Option.map_eq_some_iff.mp hl
    exact current_of_untouched hw hc he (hG c hc e he)
  · intro a ha
    exact (hchained.descends a ha).2
  · intro path allowJWK body hdr q a hq ha
    obtain ⟨hverify, ⟨hnone, _⟩ | ⟨id, acct, hacct, hrow, _, hkey⟩⟩ := authenticate_eq_ok hq
    · rw [hnone] at ha
      simp at ha
    · obtain rfl : acct = a := Option.some.inj (hacct.symm.trans ha)
      have hmem : acct ∈ w.shared.tables.accounts :=
        (mem_of_find?_key (Option.some.inj hrow)).1
      obtain ⟨key, hencode, htp⟩ := (hchained.descends acct hmem).1
      have hsame : q.jwk = key :=
        Option.some.inj (hkey.symm.trans (hcodec key acct.jwk hencode))
      exact ⟨hverify, hsame ▸ htp, hmem⟩

/-- The labels of a key change up to its write. -/
def sampleChange (p : Pid) (body : String) : List (Action Choice Call Outside) :=
  [.spawn p (.keyChange (some body)), .act p ⟨true, some true, ""⟩, .act p ⟨true, none, ""⟩,
    .act p ⟨true, none, ""⟩]

/-- One request after the other: the account has the new key. -/
theorem key_changes_sample :
    ∃ w : World Desk (Recorded Desk Call Handler),
      changes "a" w.shared.log = [⟨"old", "new1", "new1"⟩] ∧
      ∀ a ∈ w.shared.tables.accounts,
        ∃ p a₀ time late,
          .handler p (.registered a₀ time) late ∈ w.shared.log ∧ a₀.id = a.id ∧
            Chain (a₀.thumbprint, a₀.jwk) (changes a.id w.shared.log)
              (a.thumbprint, a.jwk) := by
  have hfollow :
      (((calls sampleCodec sampleServer).system Fresh).follow
        (undisturbed sampleCodec sampleServer) (World.idle ⟨⟨[], []⟩, 0, []⟩)
        (sampleRegistration ++ [.act 0 ⟨true, none, ""⟩] ++ sampleChange 1 "change1" ++
          [.act 1 ⟨true, none, ""⟩, .act 1 ⟨true, none, ""⟩])).any
          (fun w => decide
            (changes "a" w.shared.log = [⟨"old", "new1", "new1"⟩])) = true := by
    decide
  obtain ⟨w, hrun, hcheck⟩ := Automaton.Run.exists_of_follow hfollow
  have hinit : ((calls sampleCodec sampleServer).system Fresh).init
      (World.idle ⟨⟨[], []⟩, 0, []⟩) := ⟨⟨rfl, rfl⟩, World.idle_quiet _⟩
  have hcodec : ∀ key jwk, sampleCodec.encodeKey key = some jwk →
      sampleCodec.decodeKey jwk = some key := by
    intro key jwk h
    exact h.symm
  obtain ⟨_, hchain, _⟩ := key_changes sampleCodec sampleServer hcodec
    (Automaton.Reachable.of_run hinit hrun)
  exact ⟨w, of_decide_eq_true hcheck, hchain⟩

/-- Two requests signed by the same key, both verified before either writes: both
succeed, and the second replaces a key it did not name. -/
theorem key_changes_race :
    ∃ w,
      ((program sampleCodec sampleServer).system Fresh).Reachable
        (runs sampleCodec sampleServer anyStep) w ∧
      changes "a" w.shared.log =
        [⟨"old", "new1", "new1"⟩, ⟨"old", "new2", "new2"⟩] ∧
      (∃ time, .handler 1 (.answered (.account 200 none "valid" "/acme/acct/a/orders")) time ∈
        w.shared.log) ∧
      (∃ time, .handler 2 (.answered (.account 200 none "valid" "/acme/acct/a/orders")) time ∈
        w.shared.log) ∧
      w.shared.tables.accounts.map AccountRow.thumbprint = ["new2"] ∧
      ∀ key, ¬ Chain key (changes "a" w.shared.log) ("new2", "new2") := by
  have hfollow :
      (((program sampleCodec sampleServer).system Fresh).follow
        (runs sampleCodec sampleServer anyStep) sampleWorld
        (sampleRegistration ++ [.act 0 ⟨true, none, ""⟩] ++ sampleChange 1 "change1" ++
          sampleChange 2 "change2" ++
          [.act 1 ⟨true, none, ""⟩, .act 1 ⟨true, none, ""⟩,
            .act 2 ⟨true, none, ""⟩, .act 2 ⟨true, none, ""⟩])).any
          (fun w => decide
            (changes "a" w.shared.log =
                [⟨"old", "new1", "new1"⟩, ⟨"old", "new2", "new2"⟩] ∧
              .handler 1 (.answered (.account 200 none "valid" "/acme/acct/a/orders"))
                  9000000000 ∈ w.shared.log ∧
              .handler 2 (.answered (.account 200 none "valid" "/acme/acct/a/orders"))
                  9000000000 ∈ w.shared.log ∧
              w.shared.tables.accounts.map AccountRow.thumbprint = ["new2"])) = true := by
    decide
  obtain ⟨w, hrun, hcheck⟩ := Automaton.Run.exists_of_follow hfollow
  obtain ⟨hchanges, hfirst, hsecond, hkey⟩ := of_decide_eq_true hcheck
  refine ⟨w, Automaton.Reachable.of_run sampleWorld_init hrun, hchanges, ⟨_, hfirst⟩,
    ⟨_, hsecond⟩, hkey, ?_⟩
  intro key hchain
  rw [hchanges] at hchain
  exact absurd hchain.2.1 (by decide)

end Registry
end Acme
end Yca
