import Yca.Acme.Outline
import Yca.Core.Table

/-!
# Which handler runs which statement

`Runs` names, for the statements that insert and delete rows, the one place in
the handlers that runs them.  The handlers' code is gone through once for it;
what a table loses or gains in a step is then read off the statement.
-/

namespace Yca
namespace Acme

open Yca.Core

/-- Where a handler stands that runs the statement. -/
def Handler.Runs (s : State) (h : Handler) : Stmt → Prop
  | .insertOrder o =>
      ∃ acct grants, h = .newOrder (.insert acct grants o.expires) ∧
        o = ⟨s.nextId, acct.id, .pending, grants.map Grant.name, o.expires, none, none⟩
  | .insertAuthz a =>
      ∃ o made name rest, h = .newOrder (.authz o made (name :: rest)) ∧
        a = ⟨s.nextId, o.id, o.accountId, (splitWildcard name).1, .pending, o.expires,
          (splitWildcard name).2⟩
  | .insertChallenge c =>
      ∃ o made a t types rest, h = .newOrder (.challenge o made a (t :: types) rest) ∧
        c = ⟨s.nextId, a.id, t, s.nextId + 1, .pending, 0, none⟩
  | .insertCert c => ∃ o authzs, h = .finalize (.store o authzs c)
  | .gcOrders cutoff => h = .gc (.orders cutoff)
  | .gcAuthzs cutoff => h = .gc (.authzs cutoff)
  | .gcChallenges => h = .gc .challenges
  | _ => True

section Goes

variable {p : Pid} {k : Choice} {s : State}

/-- A handler stays the handler it is until it answers. -/
theorem newOrder_goes
    {pc : NewOrder} {out : Outcome}
    (hx : newOrderStep p k s pc = some out) :
    (∃ pc', out.2 = .newOrder pc') ∨ ∃ r, out.2 = .replied r := by
  cases newOrder_step hx with
  | refused | settled | failed => exact Or.inr ⟨_, rfl⟩
  | _ => exact Or.inl ⟨_, rfl⟩

theorem challenge_goes
    {pc : ChallengePost} {out : Outcome}
    (hx : challengeStep p k s pc = some out) :
    (∃ pc', out.2 = .challenge pc') ∨ ∃ r, out.2 = .replied r := by
  cases challenge_step hx with
  | answered => exact Or.inr ⟨_, rfl⟩
  | _ => exact Or.inl ⟨_, rfl⟩

theorem finalize_goes
    {pc : Finalize} {out : Outcome}
    (hx : finalizeStep p k s pc = some out) :
    (∃ pc', out.2 = .finalize pc') ∨ ∃ r, out.2 = .replied r := by
  cases finalize_step hx with
  | answered | refused | reloaded => exact Or.inr ⟨_, rfl⟩
  | _ => exact Or.inl ⟨_, rfl⟩

theorem collect_goes
    {pc : Collect} {out : Outcome}
    (hx : collectStep k s pc = some out) :
    (∃ pc', out.2 = .gc pc') ∨ ∃ r, out.2 = .replied r := by
  cases collect_step hx with
  | challenges | failed => exact Or.inr ⟨_, rfl⟩
  | _ => exact Or.inl ⟨_, rfl⟩

end Goes

section Next

variable {p : Pid} {k : Choice} {s : State}

theorem newOrder_runs
    {pc : NewOrder} {out : Outcome}
    (hx : newOrderStep p k s pc = some out) :
    (Handler.newOrder pc).Runs s out.1.stmt := by
  cases newOrder_step hx with
  | @inserted acct grants expires _ horder =>
      subst horder
      exact ⟨acct, grants, rfl, rfl⟩
  | @authz o made name rest _ ha => exact ⟨o, made, name, rest, rfl, ha⟩
  | @challenge o made a t types rest _ hc => exact ⟨o, made, a, t, types, rest, rfl, hc⟩
  | _ => trivial

theorem challenge_runs
    {pc : ChallengePost} {out : Outcome}
    (hx : challengeStep p k s pc = some out) :
    (Handler.challenge pc).Runs s out.1.stmt := by
  cases challenge_step hx <;> trivial

theorem finalize_runs
    {pc : Finalize} {out : Outcome}
    (hx : finalizeStep p k s pc = some out) :
    (Handler.finalize pc).Runs s out.1.stmt := by
  cases finalize_step hx with
  | @stored o authzs cert => exact ⟨o, authzs, rfl⟩
  | _ => trivial

theorem collect_runs
    {pc : Collect} {out : Outcome}
    (hx : collectStep k s pc = some out) :
    (Handler.gc pc).Runs s out.1.stmt := by
  cases collect_step hx with
  | orders | authzs | challenges => rfl
  | _ => trivial

/-- Every handler's step. -/
theorem next_runs
    {h : Handler} {out : Outcome}
    (hx : next p k s h = some out) :
    h.Runs s out.1.stmt := by
  cases h with
  | newOrder pc => exact newOrder_runs hx
  | challenge pc => exact challenge_runs hx
  | finalize pc => exact finalize_runs hx
  | gc pc => exact collect_runs hx
  | replied r => simp [next] at hx

/-- Only a newOrder handler goes on as one. -/
theorem next_newOrder
    {h : Handler} {out : Outcome} {pc' : NewOrder}
    (hx : next p k s h = some out)
    (hout : out.2 = .newOrder pc') :
    ∃ pc, h = .newOrder pc := by
  cases h with
  | newOrder pc => exact ⟨pc, rfl⟩
  | challenge pc =>
      rcases challenge_goes hx with ⟨_, hgo⟩ | ⟨_, hgo⟩ <;> cases hgo.symm.trans hout
  | finalize pc =>
      rcases finalize_goes hx with ⟨_, hgo⟩ | ⟨_, hgo⟩ <;> cases hgo.symm.trans hout
  | gc pc =>
      rcases collect_goes hx with ⟨_, hgo⟩ | ⟨_, hgo⟩ <;> cases hgo.symm.trans hout
  | replied r => simp [next] at hx

/-- The events of a newOrder handler. -/
theorem newOrder_events
    {pc : NewOrder} {out : Outcome}
    (hx : newOrderStep p k s pc = some out) :
    out.1.events = [] ∨ (∃ o, out.1.events = [.settled o]) ∨
    (∃ order made, pc = .authz order made [] ∧
      out.1.events = [.settled order.id, .disclosed order.id]) ∨
    ∃ acct grants expires order, pc = .insert acct grants expires ∧
      out.1.events = [.opened order acct grants p s.now] ∧
      out.2 = .newOrder (.authz order [] (grants.map Grant.name)) := by
  cases newOrder_step hx with
  | @inserted acct grants expires order _ =>
      exact Or.inr (Or.inr (Or.inr ⟨acct, grants, expires, order, rfl, rfl, rfl⟩))
  | @settled order made => exact Or.inr (Or.inr (Or.inl ⟨order, made, rfl, rfl⟩))
  | @failed _ _ o _ _ => exact Or.inr (Or.inl ⟨o, rfl⟩)
  | _ => exact Or.inl rfl

/-- The events about how an order came to be. -/
def Event.founding : Event → Bool
  | .opened .. => true
  | .settled _ => true
  | .disclosed _ => true
  | _ => false

/-- Only a newOrder handler records them. -/
theorem next_founding
    {h : Handler} {out : Outcome}
    (hx : next p k s h = some out)
    {ev : Event}
    (hev : ev ∈ out.1.events)
    (hfounding : ev.founding = true) :
    ∃ pc, h = .newOrder pc := by
  have hnone : ∀ x : Event, x.founding = false → out.1.events = [x] → False := by
    intro x hx heq
    rw [heq, List.mem_singleton] at hev
    rw [hev, hx] at hfounding
    cases hfounding
  cases h with
  | newOrder pc => exact ⟨pc, rfl⟩
  | challenge pc =>
      cases challenge_step hx with
      | won | proved => exact (hnone _ rfl rfl).elim
      | _ => cases hev
  | finalize pc =>
      cases finalize_step hx with
      | claimed | issued | blocked => exact (hnone _ rfl rfl).elim
      | _ => cases hev
  | gc pc => cases collect_step hx <;> cases hev
  | replied r => simp [next] at hx

/-- An order is opened at one place only, `InsertOrder`. -/
theorem next_opened
    {h : Handler} {out : Outcome}
    (hx : next p k s h = some out)
    {o : Order} {acct : Account} {grants : List Grant} {q : Pid} {t : Nat}
    (hev : Event.opened o acct grants q t ∈ out.1.events) :
    q = p ∧ k = .ok ∧ out.1.events = [.opened o acct grants p s.now] ∧
      out.2 = .newOrder (.authz o [] (grants.map Grant.name)) ∧
      ∃ expires, h = .newOrder (.insert acct grants expires) ∧
        o = ⟨s.nextId, acct.id, .pending, grants.map Grant.name, expires, none, none⟩ := by
  rcases next_founding hx hev rfl with ⟨pc, rfl⟩
  cases newOrder_step hx with
  | @inserted acct grants expires order horder =>
      rw [List.mem_singleton] at hev
      cases hev
      exact ⟨rfl, rfl, rfl, rfl, expires, rfl, horder⟩
  | refused => cases hev
  | settled => simp at hev
  | failed => simp at hev
  | _ => cases hev

/-- A client is given the ids of an order at one place only. -/
theorem next_discloses
    {h : Handler} {out : Outcome}
    (hx : next p k s h = some out)
    {o : Nat}
    (hev : Event.disclosed o ∈ out.1.events) :
    ∃ order made, h = .newOrder (.authz order made []) ∧ order.id = o := by
  rcases next_founding hx hev rfl with ⟨pc, rfl⟩
  rcases newOrder_events hx with heq | ⟨x, heq⟩ | ⟨order, made, rfl, heq⟩ | ⟨_, _, _, _, _, heq, _⟩ <;>
    rw [heq] at hev
  · cases hev
  · simp at hev
  · exact ⟨order, made, rfl, by simpa [eq_comm] using hev⟩
  · simp at hev

end Next

/-- The tables that orders go through are as they were. -/
structure SameRows (s s' : State) : Prop where
  orders : s'.db.orders = s.db.orders
  authzs : s'.db.authzs = s.db.authzs
  challenges : s'.db.challenges = s.db.challenges
  certs : s'.db.certs = s.db.certs

/-- The surroundings touch no table that orders go through, nor the history. -/
theorem outside_rows (s : State) (e : Outside) :
    SameRows s (outside s e) ∧ (outside s e).log = s.log := by
  cases e with
  | insertEab c =>
      simp only [outside]
      split <;> exact ⟨⟨rfl, rfl, rfl, rfl⟩, rfl⟩
  | _ => exact ⟨⟨rfl, rfl, rfl, rfl⟩, rfl⟩

theorem die_db (h : Handler) (s : State) :
    (die h s).db = s.db := by
  simp only [die]
  split <;> rfl

theorem die_rows (h : Handler) (s : State) :
    SameRows s (die h s) := by
  constructor <;> rw [die_db]

theorem die_disclosed
    {h : Handler} {s : State} {o : Nat}
    (ho : Event.disclosed o ∈ (die h s).log) :
    Event.disclosed o ∈ s.log := by
  simp only [die] at ho
  split at ho
  · exact ho
  · simpa using ho

theorem die_opened
    {h : Handler} {s : State}
    {o : Order} {acct : Account} {grants : List Grant} {p : Pid} {t : Nat}
    (ho : Event.opened o acct grants p t ∈ (die h s).log) :
    Event.opened o acct grants p t ∈ s.log := by
  simp only [die] at ho
  split at ho
  · exact ho
  · simpa using ho

end Acme
end Yca
