import Yca.Acme.Authorizations
import Yca.Acme.Statements

/-!
# Taking a credential away

`DeleteEAB` is meant to end ordering: "accounts registered with it keep
existing but can no longer order".  A handler that is running when the
credential goes may have had its names admitted already.  So what holds is
this: only a handler that had passed the last of its checks at that moment
still opens an order for such an account, and each of them at most one.
-/

namespace Yca
namespace Acme

open Yca.Core

/-- The handler has had all of its names admitted and is about to insert its
order. -/
def Handler.cleared : Handler → Option (Account × List Grant)
  | .newOrder (.check acct [] grants) => some (acct, grants)
  | .newOrder (.insert acct grants _) => some (acct, grants)
  | _ => none

/-- The order is the account's, and its identifiers are the names granted. -/
structure Order.For (o : Order) (acct : Account) (grants : List Grant) : Prop where
  account : o.accountId = acct.id
  identifiers : o.identifiers = grants.map Grant.name

section Step

variable {p : Pid} {k : Choice} {s : State}

/-- A handler is cleared by the check of its last name, which finds the
credential. -/
theorem newOrder_cleared
    {pc : NewOrder} {out : Outcome} {acct : Account} {grants : List Grant}
    (hx : newOrderStep p k s pc = some out)
    (hout : out.2.cleared = some (acct, grants)) :
    (Handler.newOrder pc).cleared = some (acct, grants) ∨
      ∃ cred, s.db.getEab acct.eabKid = some cred := by
  cases newOrder_step hx with
  | @granted a id rest gs cred _ hcred _ =>
      cases rest <;> cases hout
      exact Or.inr ⟨cred, hcred⟩
  | cleared => exact Or.inl hout
  | @accepted _ ids _ _ _ hids =>
      cases ids with
      | nil => cases hids
      | cons => cases hout
  | _ => cases hout

theorem next_cleared
    {h : Handler} {out : Outcome} {acct : Account} {grants : List Grant}
    (hx : next p k s h = some out)
    (hout : out.2.cleared = some (acct, grants)) :
    h.cleared = some (acct, grants) ∨ ∃ cred, s.db.getEab acct.eabKid = some cred := by
  cases hgo : out.2 with
  | newOrder pc' =>
      rcases next_newOrder hx hgo with ⟨pc, rfl⟩
      exact newOrder_cleared hx hout
  | _ =>
      rw [hgo] at hout
      cases hout

/-- An order is opened, for the names granted, by a handler that is cleared, and
then not any more. -/
theorem next_opens
    {h : Handler} {out : Outcome}
    (hx : next p k s h = some out)
    {o : Order} {acct : Account} {grants : List Grant} {q : Pid} {t : Nat}
    (hev : Event.opened o acct grants q t ∈ out.1.events) :
    q = p ∧ h.cleared = some (acct, grants) ∧ out.2.cleared = none ∧
      out.1.events = [.opened o acct grants p s.now] ∧ o.For acct grants := by
  rcases next_opened hx hev with ⟨rfl, _, hevents, hgo, expires, rfl, rfl⟩
  refine ⟨rfl, rfl, ?_, hevents, rfl, rfl⟩
  rw [hgo]
  rfl

end Step

/-- Process `p` was cleared for these names. -/
def Cleared (w : World State Handler) (p : Pid) (acct : Account) (grants : List Grant) : Prop :=
  ∃ h, w.procs p = some h ∧ h.cleared = some (acct, grants)

/-- The orders of the credential's accounts, since it was taken away in `w`. -/
structure Withdrawn (kid : String) (w v : World State Handler) : Prop where
  gone : v.shared.db.getEab kid = none
  cleared : ∀ p acct grants, Cleared v p acct grants → acct.eabKid = kid →
    Cleared w p acct grants ∧
    ∀ o acct' grants' t, Event.opened o acct' grants' p t ∈ v.shared.log →
      acct'.eabKid = kid → Event.opened o acct' grants' p t ∈ w.shared.log
  opened : ∀ o acct grants p t, Event.opened o acct grants p t ∈ v.shared.log →
    acct.eabKid = kid →
    Event.opened o acct grants p t ∈ w.shared.log ∨
      Cleared w p acct grants ∧ o.For acct grants
  once : ∀ p o acct grants t o' acct' grants' t',
    Event.opened o acct grants p t ∈ v.shared.log → acct.eabKid = kid →
    Event.opened o acct grants p t ∉ w.shared.log →
    Event.opened o' acct' grants' p t' ∈ v.shared.log → acct'.eabKid = kid →
    Event.opened o' acct' grants' p t' ∉ w.shared.log → o = o'

section Withdrawn

variable {kid : String} {w v v' : World State Handler}

theorem Withdrawn.start
    (hgone : w.shared.db.getEab kid = none) :
    Withdrawn kid w w where
  gone := hgone
  cleared _ _ _ hp _ := ⟨hp, fun _ _ _ _ hev _ => hev⟩
  opened _ _ _ _ _ hev _ := Or.inl hev
  once _ _ _ _ _ _ _ _ _ hev _ hnew := absurd hev hnew

/-- A step that opens nothing and clears nobody. -/
theorem Withdrawn.quiet
    (hv : Withdrawn kid w v)
    (hgone : v'.shared.db.getEab kid = none)
    (hcleared : ∀ p acct grants, Cleared v' p acct grants → acct.eabKid = kid →
      Cleared v p acct grants)
    (hlog : ∀ o acct grants p t, Event.opened o acct grants p t ∈ v'.shared.log →
      Event.opened o acct grants p t ∈ v.shared.log) :
    Withdrawn kid w v' where
  gone := hgone
  cleared p acct grants hp hkid := by
    rcases hv.cleared p acct grants (hcleared p acct grants hp hkid) hkid with ⟨hw, hold⟩
    exact ⟨hw, fun o acct' grants' t hev => hold o acct' grants' t (hlog _ _ _ _ _ hev)⟩
  opened o acct grants p t hev := hv.opened o acct grants p t (hlog _ _ _ _ _ hev)
  once p o acct grants t o' acct' grants' t' hev hkid hnew hev' :=
    hv.once p o acct grants t o' acct' grants' t' (hlog _ _ _ _ _ hev) hkid hnew
      (hlog _ _ _ _ _ hev')

theorem getEab_run (stmt : Stmt) (d : Db) (kid : String) :
    (stmt.run d).getEab kid = d.getEab kid := by
  cases stmt with
  | claimChallenge c =>
      simp only [Stmt.run]
      split <;> rfl
  | _ => rfl

/-- The credential stays away while it is not inserted again. -/
theorem getEab_outside
    {s : State} {e : Outside}
    (hgone : s.db.getEab kid = none)
    (hnever : ∀ c, e = .insertEab c → c.kid ≠ kid) :
    (outside s e).db.getEab kid = none := by
  cases e with
  | insertEab c =>
      have hne : (c.kid == kid) = false := by simpa using hnever c rfl
      simp only [outside]
      split
      · exact hgone
      · simp only [Db.getEab, List.find?_append] at hgone ⊢
        simp [hgone, hne]
  | deleteEab kid' =>
      simp only [Db.getEab, List.find?_eq_none] at hgone ⊢
      intro c hc
      exact hgone c (List.mem_of_mem_filter hc)
  | _ => exact hgone

/-- What becomes of the processes that are cleared when one of them moves. -/
theorem cleared_put
    {s : State} {p q : Pid} {l : Option Handler} {acct : Account} {grants : List Grant}
    (hq : Cleared (v.put s p l) q acct grants) :
    (q = p ∧ ∃ h, l = some h ∧ h.cleared = some (acct, grants)) ∨
      q ≠ p ∧ Cleared v q acct grants := by
  rcases hq with ⟨h, hq, hh⟩
  by_cases hqp : q = p
  · subst hqp
    rw [World.put_procs_self] at hq
    exact Or.inl ⟨rfl, h, hq, hh⟩
  · rw [World.put_procs_of_ne v s hqp] at hq
    exact Or.inr ⟨hqp, h, hq, hh⟩

/-- A handler's step: it goes on as cleared as it was, or it opens its order. -/
theorem Withdrawn.act
    (hv : Withdrawn kid w v)
    {p : Pid} {k : Choice} {h : Handler} {out : Outcome}
    (hp : v.procs p = some h)
    (hx : next p k v.shared h = some out) :
    Withdrawn kid w (v.put (v.shared.apply out.1) p (some out.2)) := by
  have hgone : (v.shared.apply out.1).db.getEab kid = none :=
    (getEab_run out.1.stmt v.shared.db kid).trans hv.gone
  have hstays : ∀ q acct grants, Cleared (v.put (v.shared.apply out.1) p (some out.2)) q acct grants →
      acct.eabKid = kid → Cleared v q acct grants := by
    intro q acct grants hq hkid
    rcases cleared_put hq with ⟨rfl, m, hm, hcleared⟩ | ⟨_, hq⟩
    · rw [← Option.some.inj hm] at hcleared
      rcases next_cleared hx hcleared with hcleared | ⟨cred, hcred⟩
      · exact ⟨h, hp, hcleared⟩
      · rw [hkid, hv.gone] at hcred
        cases hcred
    · exact hq
  by_cases hopens : ∃ o acct grants q t, Event.opened o acct grants q t ∈ out.1.events
  · rcases hopens with ⟨o, acct, grants, q, t, hev⟩
    rcases next_opens hx hev with ⟨rfl, hcleared, hdone, hevents, hfor⟩
    have hevent : ∀ o' acct' grants' r t',
        Event.opened o' acct' grants' r t' ∈ (v.shared.apply out.1).log →
        Event.opened o' acct' grants' r t' ∈ v.shared.log ∨
          (o' = o ∧ acct' = acct ∧ grants' = grants ∧ r = q) := by
      intro o' acct' grants' r t' hmem
      rw [State.apply_log, hevents] at hmem
      rcases List.mem_append.mp hmem with hold | hnew
      · exact Or.inl hold
      · simp only [List.mem_singleton, Event.opened.injEq] at hnew
        exact Or.inr ⟨hnew.1, hnew.2.1, hnew.2.2.1, hnew.2.2.2.1⟩
    have hmover : Cleared v q acct grants := ⟨h, hp, hcleared⟩
    refine ⟨hgone, ?_, ?_, ?_⟩
    · intro r acct' grants' hr hkid
      rcases hv.cleared r acct' grants' (hstays r acct' grants' hr hkid) hkid with ⟨hw, hold⟩
      refine ⟨hw, ?_⟩
      intro o' a' g' t' hmem hkid'
      rcases hevent _ _ _ _ _ hmem with hmem | ⟨_, _, _, rfl⟩
      · exact hold o' a' g' t' hmem hkid'
      · rcases cleared_put hr with ⟨_, m, hm, hcl⟩ | ⟨hne, _⟩
        · rw [← Option.some.inj hm, hdone] at hcl
          cases hcl
        · exact absurd rfl hne
    · intro o' a' g' r t' hmem hkid
      rcases hevent _ _ _ _ _ hmem with hmem | ⟨rfl, rfl, rfl, rfl⟩
      · exact hv.opened o' a' g' r t' hmem hkid
      · exact Or.inr ⟨(hv.cleared r a' g' hmover hkid).1, hfor⟩
    · -- Before this one the mover had opened none since the withdrawal.
      have hfirst : ∀ o' a' g' t', acct.eabKid = kid →
          Event.opened o' a' g' q t' ∈ v.shared.log → a'.eabKid = kid →
          Event.opened o' a' g' q t' ∈ w.shared.log :=
        fun o' a' g' t' hkid hmem hkid' =>
          (hv.cleared q acct grants hmover hkid).2 o' a' g' t' hmem hkid'
      intro r o₁ a₁ g₁ t₁ o₂ a₂ g₂ t₂ h₁ hkid₁ hnew₁ h₂ hkid₂ hnew₂
      rcases hevent _ _ _ _ _ h₁ with hold₁ | ⟨rfl, rfl, rfl, rfl⟩
      · rcases hevent _ _ _ _ _ h₂ with hold₂ | ⟨rfl, rfl, rfl, rfl⟩
        · exact hv.once r o₁ a₁ g₁ t₁ o₂ a₂ g₂ t₂ hold₁ hkid₁ hnew₁ hold₂ hkid₂ hnew₂
        · exact absurd (hfirst o₁ a₁ g₁ t₁ hkid₂ hold₁ hkid₁) hnew₁
      · rcases hevent _ _ _ _ _ h₂ with hold₂ | ⟨rfl, _, _, _⟩
        · exact absurd (hfirst o₂ a₂ g₂ t₂ hkid₁ hold₂ hkid₂) hnew₂
        · rfl
  · refine hv.quiet hgone hstays ?_
    intro o acct grants q t hmem
    rcases List.mem_append.mp hmem with hold | hnew
    · exact hold
    · exact absurd ⟨o, acct, grants, q, t, hnew⟩ hopens

/-- Any step, short of inserting the credential again. -/
theorem Withdrawn.exec
    (hv : Withdrawn kid w v)
    {a : Action Choice Request Outside}
    (hnever : ∀ c, a = .env (.insertEab c) → c.kid ≠ kid)
    (hx : frontend.exec v a = some v') :
    Withdrawn kid w v' := by
  cases a with
  | spawn p r =>
      rcases Program.exec_spawn hx with ⟨_, rfl⟩
      refine hv.quiet hv.gone ?_ fun _ _ _ _ _ hev => hev
      intro q acct grants hq _
      rcases cleared_put hq with ⟨_, h, hstart, hcleared⟩ | ⟨_, hq⟩
      · rw [← Option.some.inj hstart] at hcleared
        cases r <;> cases hcleared
      · exact hq
  | act p k =>
      rcases Program.exec_act hx with ⟨h, s', l, hp, hact, rfl⟩
      rcases frontend_act hact with ⟨e, h', hnext, rfl, rfl⟩
      exact hv.act hp hnext
  | crash p =>
      rcases Program.exec_crash hx with ⟨h, _, rfl⟩
      refine hv.quiet ?_ ?_ ?_
      · show (die h v.shared).db.getEab kid = none
        rw [die_db]
        exact hv.gone
      · intro q acct grants hq _
        rcases cleared_put hq with ⟨_, m, hm, _⟩ | ⟨_, hq⟩
        · cases hm
        · exact hq
      · intro o acct grants q t hev
        simp only [frontend, die, World.put_shared] at hev
        split at hev
        · exact hev
        · simpa using hev
  | env e =>
      rcases Program.exec_env hx with ⟨s', hs, rfl⟩
      have hs' : s' = outside v.shared e := (Option.some.inj hs).symm
      subst hs'
      refine hv.quiet ?_ (fun _ _ _ hq _ => hq) ?_
      · exact getEab_outside hv.gone fun c hc => hnever c (congrArg _ hc)
      · intro o acct grants q t hev
        rw [← (outside_rows v.shared e).2]
        exact hev

theorem Withdrawn.run
    {G : frontend.Guarded} {as : List (Action Choice Request Outside)}
    (hv : Withdrawn kid w v)
    (hrun : server.Run G v as v')
    (hnever : ∀ c, .env (.insertEab c) ∈ as → c.kid ≠ kid) :
    Withdrawn kid w v' := by
  induction hrun with
  | nil v => exact hv
  | cons _ hx _ ih =>
      refine ih ?_ fun c hc => hnever c (List.mem_cons_of_mem _ hc)
      exact hv.exec (fun c hc => hnever c (hc ▸ List.mem_cons_self)) hx

end Withdrawn

/-- From the moment a credential is gone, and for as long as it is not inserted
again: every order that is opened for one of its accounts was opened by a
handler that had already passed its last check at that moment, its identifiers
are the names that had been granted by then, and no handler opens two. -/
theorem orders_after_withdrawal
    {G : frontend.Guarded}
    {w w' : World State Handler} {as : List (Action Choice Request Outside)} {kid : String}
    (hrun : server.Run G w as w')
    (hgone : w.shared.db.getEab kid = none)
    (hnever : ∀ c, .env (.insertEab c) ∈ as → c.kid ≠ kid) :
    (∀ o acct grants p t, Event.opened o acct grants p t ∈ w'.shared.log →
      Event.opened o acct grants p t ∉ w.shared.log → acct.eabKid = kid →
      Cleared w p acct grants ∧ o.For acct grants)
    ∧
    ∀ p o acct grants t o' acct' grants' t',
      Event.opened o acct grants p t ∈ w'.shared.log →
      Event.opened o acct grants p t ∉ w.shared.log → acct.eabKid = kid →
      Event.opened o' acct' grants' p t' ∈ w'.shared.log →
      Event.opened o' acct' grants' p t' ∉ w.shared.log → acct'.eabKid = kid →
      o = o' := by
  have hend := (Withdrawn.start hgone).run hrun hnever
  refine ⟨?_, ?_⟩
  · intro o acct grants p t hev hnew hkid
    exact (hend.opened o acct grants p t hev hkid).resolve_left hnew
  · intro p o acct grants t o' acct' grants' t' hev hnew hkid hev' hnew' hkid'
    exact hend.once p o acct grants t o' acct' grants' t' hev hkid hnew hev' hkid' hnew'

/-- What a founding event says. -/
def Event.opening : Event → Option (Order × Account × List Grant × Pid × Nat)
  | .opened o acct grants p t => some (o, acct, grants, p, t)
  | _ => none

theorem Event.opening_eq_some
    {e : Event} {o : Order} {acct : Account} {grants : List Grant} {p : Pid} {t : Nat} :
    e.opening = some (o, acct, grants, p, t) ↔ e = .opened o acct grants p t := by
  cases e <;> simp [Event.opening]

/-- A handler has had its name granted when the credential is deleted; it opens
its order afterwards. -/
theorem orders_after_withdrawal_sample :
    ∃ (w : World State Handler) (o : Order) (acct : Account) (grants : List Grant) (p : Pid)
        (t : Nat),
      w.shared.db.getEab acct.eabKid = none ∧ o.id = 1 ∧ t = 0 ∧
      Cleared w p acct grants ∧ o.For acct grants := by
  have hcheck :
      (server.follow Guard.free (World.idle sampleState)
        (.spawn 0 (.newOrder 0 [⟨"dns", "a.ca"⟩]) :: oks 0 2 ++
          [.env (.deleteEab "kid")])).any
        (fun w => decide (w.shared.log = [] ∧ w.shared.db.getEab "kid" = none) &&
          (server.follow Guard.free w (oks 0 2)).any fun w' =>
            w'.shared.log.any fun e => e.opening.any fun x =>
              decide (x.2.1.eabKid = "kid" ∧ x.1.id = 1 ∧ x.2.2.2.2 = 0)) = true := by
    decide
  rcases Automaton.Run.exists_of_follow hcheck with ⟨w, _, hw⟩
  rw [Bool.and_eq_true] at hw
  rcases Automaton.Run.exists_of_follow hw.2 with ⟨w', hrun, hw'⟩
  rcases of_decide_eq_true hw.1 with ⟨hlog, hgone⟩
  rcases List.any_eq_true.mp hw' with ⟨e, he, hopening⟩
  rw [Option.any_eq_true] at hopening
  rcases hopening with ⟨⟨o, acct, grants, p, t⟩, hsome, hfacts⟩
  rcases of_decide_eq_true hfacts with ⟨hkid, hid, htime⟩
  rw [Event.opening_eq_some.mp hsome] at he
  have hnever : ∀ c, Action.env (Outside.insertEab c) ∈ oks 0 2 → c.kid ≠ "kid" := by
    simp [oks]
  have hcleared := (orders_after_withdrawal hrun hgone hnever).1 o acct grants p t
    he (by simp [hlog]) hkid
  exact ⟨w, o, acct, grants, p, t, hkid ▸ hgone, hid, htime, hcleared⟩

end Acme
end Yca
