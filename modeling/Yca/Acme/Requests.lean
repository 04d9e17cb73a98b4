import Yca.Acme.Registration
import Yca.Core.Chronicle

/-!
# Verified requests

The account pages begin with `verifyJWS`: it takes the nonce in the first step of
a handler, reads the account in the second and is not called again.  What a
handler does later it does for the account row it found there (`Accepted`), and
what it does is about that account alone.
-/

namespace Yca
namespace Acme
namespace Registry

open Yca.Core

/-- The page a request is for. -/
def Call.path : Call → String
  | .newAccount _ => "/acme/new-account"
  | .keyChange _ => "/acme/key-change"
  | .account id _ => "/acme/acct/" ++ id

/-- Only a registration may carry a bare key. -/
def Call.allowJWK : Call → Bool
  | .newAccount _ => true
  | _ => false

def Call.body : Call → Option String
  | .newAccount body => body
  | .keyChange body => body
  | .account _ body => body

/-- The event is about account `id`: its key, its status, or the page that only
the account itself is shown. -/
def Event.About (S : Server) (id : String) : Event → Prop
  | .rolled row _ _ _ => row.id = id
  | .statusSet i _ => i = id
  | .answered (.account _ none _ orders) => orders = S.url ("/acme/acct/" ++ id ++ "/orders")
  | _ => False

/-- About no account but the one of this row, with that row for a key change,
and deactivating at most. -/
structure Event.Confined (S : Server) (acct : Option AccountRow) (e : Event) : Prop where
  about : ∀ id, e.About S id → ∃ a, acct = some a ∧ a.id = id
  row : ∀ row old jwk tp, e = .rolled row old jwk tp → acct = some row
  final : ∀ id status, e = .statusSet id status → status = "deactivated"

theorem url_injective
    {S : Server} {id id' : String}
    (h : S.url ("/acme/acct/" ++ id ++ "/orders") = S.url ("/acme/acct/" ++ id' ++ "/orders")) :
    id = id' := by
  simpa [Server.url] using h

theorem Event.Confined.quiet (S : Server) (acct : Option AccountRow) :
    Event.quiet.Confined S acct where
  about _ h := h.elim
  row _ _ _ _ h := by cases h
  final _ _ h := by cases h

theorem Event.Confined.answered
    {S : Server} {acct : Option AccountRow} {a : Answer}
    (h : ∀ code status orders, a = .account code none status orders →
      ∀ id, orders = S.url ("/acme/acct/" ++ id ++ "/orders") →
        ∃ row, acct = some row ∧ row.id = id) :
    (Event.answered a).Confined S acct where
  about id habout := by
    cases a with
    | account code location status orders =>
        cases location with
        | none => exact h code status orders rfl id habout
        | some l => exact habout.elim
    | problem location p => exact habout.elim
    | noNonce => exact habout.elim
  row _ _ _ _ h := by cases h
  final _ _ h := by cases h

/-- All that a handler has still to do is confined to this account. -/
def Within (S : Server) (acct : Option AccountRow) (l : Handler) : Prop :=
  ∀ past, l.Notes (fun _ _ e => e.Confined S acct) past

section Scripts

variable {κ : Type} {C : Codec κ} {S : Server} {acct : Option AccountRow}

theorem within_step
    {ready : Choice → Desk → Bool} {emit : Choice → Desk → Event}
    {next : Choice → Desk → Handler}
    (hemit : ∀ k s, (emit k s).Confined S acct)
    (hnext : ∀ k s, Within S acct (next k s)) :
    Within S acct (.step ready emit next) := by
  intro past k s _
  exact ⟨hemit k s, hnext k s _⟩

theorem within_look
    {next : Choice → Desk → Handler}
    (h : ∀ k s, Within S acct (next k s)) :
    Within S acct (look next) :=
  within_step (fun _ _ => .quiet S acct) h

theorem within_answer
    {a : Answer}
    (h : ∀ code status orders, a = .account code none status orders →
      ∀ id, orders = S.url ("/acme/acct/" ++ id ++ "/orders") →
        ∃ row, acct = some row ∧ row.id = id) :
    Within S acct (answer a) := by
  refine within_step ?_ fun _ _ _ => trivial
  intro k s
  split
  · exact .answered h
  · exact .answered fun _ _ _ heq => by cases heq

theorem within_problem (location : Option String) (p : Problem) :
    Within S acct (answer (.problem location p)) :=
  within_answer fun _ _ _ heq => by cases heq

theorem within_refuse (status : Nat) (code detail : String) :
    Within S acct (refuse status code detail) :=
  within_problem none _

/-- A page with a location is nobody's own. -/
theorem within_location (code : Nat) (location : String) (a : AccountRow) :
    Within S acct (answer (accountPage S code (some location) a)) :=
  within_answer fun _ _ _ heq => by cases heq

/-- The account's own page, whatever became of the rest of its row. -/
theorem within_page
    (code : Nat)
    {row a : AccountRow}
    (ha : a.id = row.id) :
    Within S (some row) (answer (accountPage S code none a)) := by
  refine within_answer ?_
  intro code' status orders heq id horders
  cases heq
  exact ⟨row, rfl, ha ▸ url_injective horders⟩

theorem within_write
    {event : Desk → Option Event} {next : Choice → Desk → Handler}
    (hevent : ∀ s e, event s = some e → e.Confined S acct)
    (hnext : ∀ k s, Within S acct (next k s)) :
    Within S acct (write event next) := by
  refine within_step ?_ hnext
  intro k s
  split
  · cases he : event s with
    | none => exact .quiet S acct
    | some e => exact hevent s e he
  · exact .quiet S acct

theorem within_verifyEAB
    {raw outerURL : String} {key : κ} {next : EabRow → Handler}
    (h : ∀ cred, Within S acct (next cred)) :
    Within S acct (verifyEAB C raw outerURL key next) := by
  unfold verifyEAB
  split
  · exact within_refuse _ _ _
  · split
    · split
      · exact within_refuse _ _ _
      · refine within_look ?_
        intro k s
        split
        · exact within_refuse _ _ _
        · split
          · exact within_refuse _ _ _
          · split
            · exact within_refuse _ _ _
            · split
              · exact within_refuse _ _ _
              · split
                · split
                  · exact h _
                  · exact within_refuse _ _ _
                · exact within_refuse _ _ _
    · exact within_refuse _ _ _

theorem within_insertAccount (a : AccountRow) (now : Nat) :
    Within S acct (insertAccount S a now) := by
  refine within_write ?_ ?_
  · intro s e he
    split at he
    · cases he
      exact ⟨fun _ h => h.elim, fun _ _ _ _ h => (by cases h), fun _ _ h => (by cases h)⟩
    · cases he
  · intro k s
    split
    · exact within_refuse _ _ _
    · split
      · exact within_refuse _ _ _
      · exact within_refuse _ _ _
      · exact within_location _ _ _

/-- `handleNewAccount` is about no account that exists. -/
theorem within_newAccount (q : VerifiedRequest κ) :
    Within S acct (newAccountOf C S q) := by
  unfold newAccountOf
  split
  · exact within_refuse _ _ _
  · split
    · exact within_refuse _ _ _
    · refine within_look ?_
      intro k s
      split
      · exact within_refuse _ _ _
      · split
        · exact within_location _ _ _
        · split
          · exact within_refuse _ _ _
          · refine within_verifyEAB ?_
            intro cred
            split
            · exact within_refuse _ _ _
            · exact within_step (fun _ _ => .quiet S acct) fun _ _ => within_insertAccount _ _

theorem within_keyChange (row : AccountRow) (payload : String) :
    Within S (some row) (keyChangeOf C S row payload) := by
  unfold keyChangeOf
  split
  · exact within_problem _ _
  · refine within_look ?_
    intro k s
    split
    · exact within_refuse _ _ _
    · split
      · exact within_problem _ _
      · split
        · exact within_refuse _ _ _
        · refine within_write ?_ ?_
          · intro s e he
            split at he
            · cases he
              exact ⟨fun _ h => ⟨row, rfl, h⟩, fun _ _ _ _ h => (by cases h; rfl),
                fun _ _ h => (by cases h)⟩
            · cases he
          · intro k s
            split
            · exact within_page _ rfl
            · exact within_refuse _ _ _

theorem within_account (id : String) (row : AccountRow) (q : VerifiedRequest κ) :
    Within S (some row) (accountOf C S id row q) := by
  unfold accountOf
  split
  · exact within_refuse _ _ _
  · split
    · exact within_page _ rfl
    · split
      · exact within_refuse _ _ _
      · split
        · exact within_page _ rfl
        · split
          · refine within_write ?_ ?_
            · intro s e he
              cases he
              exact ⟨fun _ h => ⟨row, rfl, h⟩, fun _ _ _ _ h => (by cases h),
                fun _ _ h => (by cases h; rfl)⟩
            · intro k s
              split
              · exact within_page _ rfl
              · exact within_refuse _ _ _
          · exact within_refuse _ _ _

end Scripts

section Requests

variable {κ : Type} (C : Codec κ) (S : Server)

/-- What follows `verifyJWS` in the handler of a request. -/
def Call.accepted : Call → VerifiedRequest κ → Handler
  | .newAccount _, q => newAccountOf C S q
  | .keyChange _, q =>
      match q.account with
      | none => .halt
      | some row => keyChangeOf C S row q.payload
  | .account id _, q =>
      match q.account with
      | none => .halt
      | some row => accountOf C S id row q

theorem handle_eq (c : Call) :
    handle C S c = verified C S c.path c.allowJWK c.body (c.accepted C S) := by
  cases c <;> rfl

/-- Over the accounts of this state `verifyJWS` makes `q` of a request, once its
nonce is taken. -/
def Call.Accepts (c : Call) (s : Desk) (q : VerifiedRequest κ) : Prop :=
  ∃ text hdr,
    openJWS C.toJose c.body = .ok (text, hdr) ∧
    authenticate C.toJose S c.path c.allowJWK text hdr
      (fun id => some (s.tables.accountByID id)) = .ok q

/-- The request of a handler was verified in its second step, which found these
tables, and the handler goes on with what `verifyJWS` returned. -/
structure Accepted
    (c : Recorded Desk Call Handler)
    (s : Desk)
    (q : VerifiedRequest κ) : Prop where
  read : c.past[1]? = some s
  accepts : c.call.Accepts C S s q
  rest : (c.call.accepted C S q).Leads (c.past.drop 2) c.rest

variable {C S}

theorem Call.within_accepted (c : Call) (q : VerifiedRequest κ) :
    Within S q.account (c.accepted C S q) := by
  cases c with
  | newAccount body => exact within_newAccount q
  | keyChange body =>
      simp only [Call.accepted]
      split
      · exact fun _ => trivial
      · rename_i row hrow
        rw [hrow]
        exact within_keyChange row q.payload
  | account id body =>
      simp only [Call.accepted]
      split
      · exact fun _ => trivial
      · rename_i row hrow
        rw [hrow]
        exact within_account id row q

/-- A bare key needs no look into the tables. -/
theorem authenticate_failed
    {J : Jose κ}
    {path : String}
    {allowJWK : Bool}
    {text : String}
    {hdr : Header κ}
    {q : VerifiedRequest κ}
    (h : authenticate J S path allowJWK text hdr (fun _ => none) = .ok q)
    (find : String → Option (Option AccountRow)) :
    authenticate J S path allowJWK text hdr find = .ok q := by
  unfold authenticate at h ⊢
  split at h
  · simp at h
  · exact h
  · simp [accountKey] at h

theorem Call.Accepts.unique
    {c : Call}
    {s : Desk}
    {q q' : VerifiedRequest κ}
    (h : c.Accepts C S s q)
    (h' : c.Accepts C S s q') :
    q = q' := by
  obtain ⟨text, hdr, hopen, hq⟩ := h
  obtain ⟨text', hdr', hopen', hq'⟩ := h'
  obtain ⟨rfl, rfl⟩ := Prod.mk.inj (Except.ok.inj (hopen.symm.trans hopen'))
  exact Except.ok.inj (hq.symm.trans hq')

/-- The account of a verified request was there, and valid. -/
theorem Call.Accepts.found
    {c : Call}
    {s : Desk}
    {q : VerifiedRequest κ}
    (h : c.Accepts C S s q)
    {a : AccountRow}
    (ha : q.account = some a) :
    s.tables.accountByID a.id = some a ∧ a.status = "valid" := by
  obtain ⟨_, _, _, hq⟩ := h
  rcases (authenticate_eq_ok hq).2 with ⟨hnone, _⟩ | ⟨id, row, hsome, hlookup, hvalid, _⟩
  · rw [hnone] at ha
    simp at ha
  · obtain rfl : row = a := Option.some.inj (hsome.symm.trans ha)
    have hrow : s.tables.accountByID id = some row := Option.some.inj hlookup
    have hid : row.id = id := (mem_of_find?_key hrow).2
    exact ⟨hid ▸ hrow, hvalid⟩

/-- At most a refusal is left of the handler. -/
def Refusing (l : Handler) : Prop :=
  l = .halt ∨ ∃ p, l = answer (.problem none p)

theorem Refusing.led
    {p : Problem}
    {past : List Desk}
    {rest : Handler}
    (h : (answer (.problem none p)).Leads past rest) :
    Refusing rest := by
  cases h with
  | here => exact Or.inr ⟨p, rfl⟩
  | there k s _ hrest =>
      cases hrest with
      | here => exact Or.inl rfl

/-- Where a handler that begins with `verifyJWS` can be. -/
theorem verified_stage
    {path : String}
    {allowJWK : Bool}
    {body : Option String}
    {next : VerifiedRequest κ → Handler}
    {past : List Desk}
    {rest : Handler}
    (h : (verified C S path allowJWK body next).Leads past rest) :
    (past.length < 2 ∧ ∀ k s e, rest.event k s = some e → e = .quiet) ∨
    Refusing rest ∨
    ∃ text hdr s q,
      openJWS C.toJose body = .ok (text, hdr) ∧
      past[1]? = some s ∧
      authenticate C.toJose S path allowJWK text hdr
        (fun id => some (s.tables.accountByID id)) = .ok q ∧
      (next q).Leads (past.drop 2) rest := by
  have hlook : ∀ {f : Choice → Desk → Handler} k s e, (look f).event k s = some e → e = .quiet := by
    intro f k s e he
    simpa [look, Script.event, eq_comm] using he
  unfold verified at h
  split at h
  · exact Or.inr (Or.inl (Refusing.led h))
  · rename_i text hdr hopen
    cases h with
    | here => exact Or.inl ⟨by simp, hlook⟩
    | there k s _ h =>
        dsimp only at h
        split at h
        · exact Or.inr (Or.inl (Refusing.led h))
        · cases h with
          | here => exact Or.inl ⟨by simp, hlook⟩
          | there k' s' _ h =>
              dsimp only at h
              split at h
              · exact Or.inr (Or.inl (Refusing.led h))
              · rename_i q hq
                refine Or.inr (Or.inr ⟨text, hdr, s', q, hopen, rfl, ?_, h⟩)
                by_cases hok : k'.ok = true
                · simpa [hok] using hq
                · simp only [hok] at hq
                  exact authenticate_failed hq _

/-- Where the handler of a request can be. -/
theorem stage
    {c : Recorded Desk Call Handler}
    (h : (handle C S c.call).Leads c.past c.rest) :
    (c.past.length < 2 ∧ ∀ k s e, c.rest.event k s = some e → e = .quiet) ∨
    Refusing c.rest ∨
    ∃ s q, Accepted C S c s q := by
  rw [handle_eq] at h
  rcases verified_stage h with hearly | hrefusing | ⟨text, hdr, s, q, hopen, hread, hq, hrest⟩
  · exact Or.inl hearly
  · exact Or.inr (Or.inl hrefusing)
  · exact Or.inr (Or.inr ⟨s, q, hread, ⟨text, hdr, hopen, hq⟩, hrest⟩)

/-- What a handler does about an account it does for the row that `verifyJWS`
found. -/
theorem confined
    {c : Recorded Desk Call Handler}
    (h : (handle C S c.call).Leads c.past c.rest)
    {k : Choice}
    {t : Desk}
    {e : Event}
    (he : c.rest.event k t = some e) :
    e.Confined S none ∨ ∃ s q, Accepted C S c s q ∧ e.Confined S q.account := by
  rcases stage h with ⟨_, hquiet⟩ | hhalt | ⟨s, q, hq⟩
  · rw [hquiet k t e he]
    exact Or.inl (.quiet S none)
  · rcases hhalt with hhalt | ⟨p, hanswer⟩
    · rw [hhalt] at he
      simp [Script.event] at he
    · rw [hanswer] at he
      exact Or.inl ((within_problem none p []).event he)
  · exact Or.inr ⟨s, q, hq, ((c.call.within_accepted q []).led hq.rest).event he⟩

end Requests

section Rows

variable {S : Server} {t : Tables} {id : String} {a : AccountRow}

theorem accountByID_updateWhere
    (h : t.accountByID id = some a)
    (i : String)
    {f : AccountRow → AccountRow}
    (hf : ∀ r, (f r).id = r.id) :
    (updateWhere (fun r => r.id == i) f t.accounts).find? (fun r => r.id == id) =
      some (if id = i then f a else a) := by
  have hid : a.id = id := (mem_of_find?_key h).2
  rw [find?_updateWhere hf, show t.accounts.find? (fun r => r.id == id) = some a from h]
  simp [hid]

/-- What an event makes of an account's row. -/
theorem accountByID_run
    (h : t.accountByID id = some a)
    (e : Event) :
    ∃ b, (e.run t).accountByID id = some b ∧
      (¬ e.About S id → b = a) ∧
      (b.status = a.status ∨ e = .statusSet id b.status) ∧
      (b.thumbprint = a.thumbprint ∨ ∃ row old jwk, row.id = id ∧ e = .rolled row old jwk b.thumbprint) := by
  cases e with
  | registered r time =>
      refine ⟨a, ?_, fun _ => rfl, Or.inl rfl, Or.inl rfl⟩
      simp only [Event.run]
      split
      · rename_i t' hinsert
        rcases insertAccountEAB_eq_ok hinsert with ⟨_, _, rfl⟩
        simp only [Tables.accountByID, List.find?_append] at h ⊢
        simp [h]
      · exact h
  | rolled row old jwk tp =>
      simp only [Event.run]
      cases hset : setAccountKey row.id jwk tp t with
      | none => exact ⟨a, h, fun _ => rfl, Or.inl rfl, Or.inl rfl⟩
      | some t' =>
          rcases setAccountKey_eq_some hset with ⟨_, rfl⟩
          refine ⟨_, accountByID_updateWhere h row.id fun _ => rfl, ?_, ?_, ?_⟩
          · intro hother
            exact if_neg fun hid => hother hid.symm
          · left
            split <;> rfl
          · split
            · rename_i hid
              exact Or.inr ⟨row, old, jwk, hid.symm, rfl⟩
            · exact Or.inl rfl
  | statusSet i status =>
      refine ⟨_, accountByID_updateWhere h i fun _ => rfl, ?_, ?_, ?_⟩
      · intro hother
        exact if_neg fun hid => hother hid.symm
      · split
        · rename_i hid
          exact Or.inr (by rw [hid])
        · exact Or.inl rfl
      · left
        split <;> rfl
  | _ => exact ⟨a, h, fun _ => rfl, Or.inl rfl, Or.inl rfl⟩

end Rows

section Runs

variable {κ : Type} (C : Codec κ) (S : Server)

/-- The handlers at work, each with what it was started with and where it
stepped. -/
abbrev calls : Program Desk (Recorded Desk Call Handler) Choice Call Outside :=
  machine.records (handle C S)

end Runs

end Registry
end Acme
end Yca
