import Yca.Acme.Outline
import Yca.Acme.Pages
import Yca.Acme.Statements

/-!
# The certificate table over whole runs

A certificate row is inserted by the finalize handler of its order and never
goes.  `Filed` says that an order's certificate id names such a row, of that
order and of its account; it is kept by an outline over the handlers, since a
handler has the row inserted before it names it.  `Distinct` says that ids are
distinct, also those that handlers have drawn and not yet inserted.
-/

namespace Yca
namespace Acme

open Yca.Core

/-- The order's certificate, if it names one, is in the table. -/
def Named (s : State) (o : Order) : Prop :=
  ∀ i, o.certId = some i →
    ∃ c ∈ s.db.certs, c.id = i ∧ c.orderId = o.id ∧ c.accountId = o.accountId

/-- Every order's certificate is in the table. -/
def Filed (s : State) : Prop :=
  ∀ r ∈ s.db.orders, Named s r

/-- The order with this id belongs to the account. -/
structure Owned (s : State) (account order : Nat) : Prop where
  id : order < s.nextId
  row : ∀ r ∈ s.db.orders, r.id = order → r.accountId = account

/-- What a newOrder handler knows of the certificate of its order. -/
def NewOrder.Filing : NewOrder → Prop
  | .authz o _ _ => o.certId = none
  | .challenge o _ _ _ _ => o.certId = none
  | _ => True

/-- What a finalize handler knows of its order and its certificate. -/
def Finalize.Filing (s : State) : Finalize → Prop
  | .loadAuthzs acct o _ => Owned s acct.id o.id
  | .claim acct o _ _ => Owned s acct.id o.id
  | .issue acct o _ => Owned s acct.id o.id
  | .certMeta acct o _ _ _ => Owned s acct.id o.id
  | .store o _ c => c.orderId = o.id ∧ Owned s c.accountId o.id
  | .finish o _ c => c ∈ s.db.certs ∧ c.orderId = o.id ∧ Owned s c.accountId o.id
  | _ => True

/-- What a reply knows of the order it shows. -/
def Reply.Filing (s : State) : Reply → Prop
  | .order _ o _ => Named s o
  | _ => True

/-- What a handler knows of certificates. -/
def Filing (s : State) : Handler → Prop
  | .newOrder pc => pc.Filing
  | .finalize pc => pc.Filing s
  | .replied r => r.Filing s
  | _ => True

/-- No statement takes a certificate away. -/
theorem Stmt.certs_prefix (stmt : Stmt) (d : Db) :
    d.certs <+: (stmt.run d).certs := by
  cases stmt with
  | claimChallenge x =>
      simp only [Stmt.run]
      split <;> exact List.prefix_rfl
  | insertCert x => exact List.prefix_append _ _
  | _ => exact List.prefix_rfl

section Step

variable {strict : Bool} {p q : Pid} {h m : Handler} {s s' : State}

theorem Named.grow
    (hcerts : ∀ c ∈ s.db.certs, c ∈ s'.db.certs)
    {o : Order}
    (ho : Named s o) :
    Named s' o := by
  intro i hi
  rcases ho i hi with ⟨c, hc, hrest⟩
  exact ⟨c, hcerts c hc, hrest⟩

/-- Whose an order is never changes. -/
theorem Owned.stable
    (hc : Change strict q h s s')
    {account order : Nat}
    (ho : Owned s account order) :
    Owned s' account order where
  id := Nat.lt_of_lt_of_le ho.id hc.nextId
  row r' hr' hid := by
    rcases hc.orders.row r' hr' with ⟨r, hr, hm⟩ | hnew
    · rw [hm.fixed.2.1]
      exact ho.row r hr (hm.fixed.1 ▸ hid)
    · have := ho.id
      have := hnew.id
      omega

/-- An order names its certificate after the row was inserted. -/
theorem Filed.change
    (hc : Change strict q h s s')
    (hcerts : ∀ c ∈ s.db.certs, c ∈ s'.db.certs)
    (hown : Filing s h)
    (hs : Filed s) :
    Filed s' := by
  intro r' hr'
  rcases hc.orders.row r' hr' with ⟨r, hr, hm⟩ | hnew
  · cases hm with
    | same => exact (hs r' hr).grow hcerts
    | claim _ _ => exact (hs r hr).grow hcerts
    | failed _ _ => simp [Named]
    | ready _ _ _ => simp [Named]
    | refused _ _ => simp [Named]
    | @finish o authzs cert hh hid _ =>
        subst hh
        rcases hown with ⟨hmem, horder, howned⟩
        intro i hi
        refine ⟨cert, hcerts cert hmem, Option.some.inj hi, horder.trans hid, ?_⟩
        exact (howned.row r hr hid.symm).symm
  · simp [Named, hnew.certId]

/-- What a handler knows of certificates survives any step of another. -/
theorem Filing.stable
    (hc : Change strict q h s s')
    (hcerts : ∀ c ∈ s.db.certs, c ∈ s'.db.certs)
    (hf : Filing s m) :
    Filing s' m := by
  cases m with
  | newOrder pc => exact hf
  | challenge pc => trivial
  | finalize pc =>
      cases pc with
      | loadAuthzs _ _ _ => exact Owned.stable hc hf
      | claim _ _ _ _ => exact Owned.stable hc hf
      | issue _ _ _ => exact Owned.stable hc hf
      | certMeta _ _ _ _ _ => exact Owned.stable hc hf
      | store _ _ _ => exact ⟨hf.1, hf.2.stable hc⟩
      | finish _ _ c => exact ⟨hcerts c hf.1, hf.2.1, hf.2.2.stable hc⟩
      | _ => trivial
  | gc pc => trivial
  | replied r =>
      cases r with
      | order st o as => exact Named.grow hcerts hf
      | _ => trivial

end Step

/-- An answer that shows no order claims nothing of certificates. -/
theorem Reply.Bare.filing
    {s : State} {r : Reply}
    (hr : r.Bare) :
    r.Filing s := by
  cases r with
  | order status o authzs => exact hr.elim
  | _ => trivial

section Next

variable {p : Pid} {k : Choice} {s : State}

theorem filing_newOrder_next
    {pc : NewOrder} {out : Outcome}
    (hf : pc.Filing)
    (hx : newOrderStep p k s pc = some out) :
    Filing (s.apply out.1) out.2 := by
  cases newOrder_step hx with
  | inserted horder =>
      subst horder
      exact rfl
  | @settled o =>
      have ho : o.certId = none := hf
      simp [Filing, Reply.Filing, Named, ho]
  | authz => exact hf
  | added => exact hf
  | challenge => exact hf
  | _ => trivial

theorem filing_challenge_next
    {pc : ChallengePost} {out : Outcome}
    (hx : challengeStep p k s pc = some out) :
    Filing (s.apply out.1) out.2 := by
  cases challenge_step hx with
  | answered r hr => exact hr.filing
  | _ => trivial

theorem filing_finalize_next
    (hs : Ids s)
    (hfiled : Filed s)
    {pc : Finalize} {out : Outcome}
    (hf : pc.Filing s)
    (hc : Change false p (.finalize pc) s (s.apply out.1))
    (hx : finalizeStep p k s pc = some out) :
    Filing (s.apply out.1) out.2 := by
  cases finalize_step hx with
  | answered r hr => exact hr.filing
  | loaded ho hacct =>
      rcases mem_of_find?_key ho with ⟨hmem, rfl⟩
      refine ⟨hs.order _ hmem, ?_⟩
      intro r hr hid
      have hr : r ∈ s.db.orders := hr
      rw [hs.orderKey.eq hr hmem hid]
      exact hacct
  | checked => exact Owned.stable hc hf
  | claimed => exact Owned.stable hc hf
  | issued => exact Owned.stable hc hf
  | parsed => exact ⟨rfl, Owned.stable hc hf⟩
  | stored => exact ⟨by simp [Stmt.run], hf.1, hf.2.stable hc⟩
  | reloaded hr => exact hfiled _ (mem_of_find?_key hr).1
  | _ => trivial

theorem filing_collect_next
    {pc : Collect} {out : Outcome}
    (hx : collectStep k s pc = some out) :
    Filing (s.apply out.1) out.2 := by
  cases collect_step hx <;> trivial

/-- Every handler's own step. -/
theorem filing_next
    (hs : Ids s)
    (hfiled : Filed s)
    {h : Handler} {out : Outcome}
    (hf : Filing s h)
    (hc : Change false p h s (s.apply out.1))
    (hx : next p k s h = some out) :
    Filing (s.apply out.1) out.2 := by
  cases h with
  | newOrder pc => exact filing_newOrder_next hf hx
  | challenge pc => exact filing_challenge_next hx
  | finalize pc => exact filing_finalize_next hs hfiled hf hc hx
  | gc pc => exact filing_collect_next hx
  | replied r => simp [next] at hx

end Next

/-- The proof outline of the certificate table. -/
theorem filedOutline :
    Program.Outline frontend Initial (Presents false)
      (fun s => Inv false s ∧ Filed s)
      (fun p s h => Asserts false p s h ∧ Filing s h) where
  init s hs := by
    refine ⟨Inv.init false hs, ?_⟩
    intro r hr
    rw [hs.1] at hr
    simp at hr
  spawn w p r _ hG _ := by
    cases r with
    | challenge account c get => exact ⟨hG, trivial⟩
    | _ => exact ⟨trivial, trivial⟩
  act w p k h s' l hw _ hp hx := by
    rcases frontend_act hx with ⟨e, h', hnext, rfl, rfl⟩
    rcases hw.local_ p h hp with ⟨hJ, hf⟩
    rcases hw.shared with ⟨hs, hfiled⟩
    rcases next_owes hs hJ hnext with ⟨hc, hJ'⟩
    have hcerts : ∀ c ∈ w.shared.db.certs, c ∈ (w.shared.apply e).db.certs :=
      fun c hmem => (e.stmt.certs_prefix _).subset hmem
    refine ⟨⟨hs.change hc, hfiled.change hc hcerts hf⟩, ?_, ?_⟩
    · intro m hm
      rw [← Option.some.inj hm]
      exact ⟨hJ', filing_next hs.ids hfiled hf hc hnext⟩
    · intro q m hqp _ hq
      exact ⟨hq.1.stable hs hc hqp.symm, hq.2.stable hc hcerts⟩
  crash w p h hw hp := by
    rcases hw.shared with ⟨hs, hfiled⟩
    have hc := die_change (hw.local_ p h hp).1 (.replied .collected)
    have hcerts : ∀ c ∈ w.shared.db.certs, c ∈ (die h w.shared).db.certs := by
      simp [(die_rows h w.shared).certs]
    refine ⟨⟨hs.change hc, hfiled.change hc hcerts trivial⟩, ?_⟩
    intro q m hqp _ hq
    exact ⟨hq.1.stable hs hc hqp.symm, hq.2.stable hc hcerts⟩
  env w e s' hw _ hx := by
    have hs' : s' = outside w.shared e := (Option.some.inj hx).symm
    subst hs'
    rcases hw.shared with ⟨hs, hfiled⟩
    have hc := fun q => outside_change false q (.replied .collected) w.shared e
    have hcerts : ∀ c ∈ w.shared.db.certs, c ∈ (outside w.shared e).db.certs := by
      simp [(outside_rows w.shared e).1.certs]
    refine ⟨⟨hs.change (hc 0), hfiled.change (hc 0) hcerts trivial⟩, ?_⟩
    intro q m _ hq
    exact ⟨hq.1.stable hs (hc (q + 1)) (Nat.succ_ne_self q), hq.2.stable (hc 0) hcerts⟩

/-- The certificate a finalize handler is about to insert. -/
def Handler.storing : Handler → Option Cert
  | .finalize (.store _ _ c) => some c
  | _ => none

/-- Certificate ids are distinct, the ids of certificates that are about to be
inserted included. -/
structure Distinct (w : World State Handler) : Prop where
  ids : ∀ c ∈ w.shared.db.certs, c.id < w.shared.nextId
  key : UniqueKey Cert.id w.shared.db.certs
  drawn : ∀ p h c, w.procs p = some h → h.storing = some c →
    c.id < w.shared.nextId ∧ ∀ x ∈ w.shared.db.certs, x.id ≠ c.id
  apart : ∀ p q h m c d, p ≠ q →
    w.procs p = some h → h.storing = some c →
    w.procs q = some m → m.storing = some d → c.id ≠ d.id

/-- A handler is about to insert a certificate after it has drawn its id. -/
theorem next_storing
    {p : Pid} {k : Choice} {s : State} {h : Handler} {out : Outcome}
    (hx : next p k s h = some out) :
    out.2.storing = none ∨
      ∃ c, out.1.stmt = .none ∧ out.1.draws = 1 ∧ out.2.storing = some c ∧ c.id = s.nextId := by
  cases h with
  | newOrder pc =>
      left
      rcases newOrder_goes hx with ⟨pc', hout⟩ | ⟨r, hout⟩ <;> (rw [hout]; rfl)
  | challenge pc =>
      left
      rcases challenge_goes hx with ⟨pc', hout⟩ | ⟨r, hout⟩ <;> (rw [hout]; rfl)
  | gc pc =>
      left
      rcases collect_goes hx with ⟨pc', hout⟩ | ⟨r, hout⟩ <;> (rw [hout]; rfl)
  | replied r => simp [next] at hx
  | finalize pc =>
      cases finalize_step hx with
      | parsed => exact Or.inr ⟨_, rfl, rfl, rfl, rfl⟩
      | _ => exact Or.inl rfl

/-- Every statement but one leaves the certificates as they are. -/
theorem Stmt.certs_other
    {stmt : Stmt}
    (hstmt : ∀ c, stmt ≠ .insertCert c)
    (d : Db) :
    (stmt.run d).certs = d.certs := by
  cases stmt with
  | claimChallenge x =>
      simp only [Stmt.run]
      split <;> rfl
  | insertCert c => exact absurd rfl (hstmt c)
  | _ => rfl

section Distinct

variable {w w' : World State Handler}

/-- No certificate is inserted, and no id is drawn for one. -/
theorem Distinct.sub
    (hd : Distinct w)
    (hcerts : w'.shared.db.certs = w.shared.db.certs)
    (hnext : w.shared.nextId ≤ w'.shared.nextId)
    (hsub : ∀ p h c, w'.procs p = some h → h.storing = some c →
      ∃ h₀, w.procs p = some h₀ ∧ h₀.storing = some c) :
    Distinct w' where
  ids c hc := Nat.lt_of_lt_of_le (hd.ids c (hcerts ▸ hc)) hnext
  key := by
    rw [hcerts]
    exact hd.key
  drawn p h c hp hh := by
    rcases hsub p h c hp hh with ⟨h₀, hp₀, hh₀⟩
    rcases hd.drawn p h₀ c hp₀ hh₀ with ⟨hlt, hne⟩
    rw [hcerts]
    exact ⟨Nat.lt_of_lt_of_le hlt hnext, hne⟩
  apart p q h m c d hpq hp hh hq hm := by
    rcases hsub p h c hp hh with ⟨h₀, hp₀, hh₀⟩
    rcases hsub q m d hq hm with ⟨m₀, hq₀, hm₀⟩
    exact hd.apart p q h₀ m₀ c d hpq hp₀ hh₀ hq₀ hm₀

/-- Of the handlers that are about to insert, one that moved is so no more. -/
theorem storing_put
    {s : State} {p : Pid} {l : Option Handler}
    (hl : ∀ h, l = some h → h.storing = none) :
    ∀ q h c, (w.put s p l).procs q = some h → h.storing = some c →
      q ≠ p ∧ w.procs q = some h := by
  intro q h c hq hh
  by_cases hqp : q = p
  · subst hqp
    rw [World.put_procs_self] at hq
    rw [hl h hq] at hh
    simp at hh
  · rw [World.put_procs_of_ne w s hqp] at hq
    exact ⟨hqp, hq⟩

/-- A handler draws the id of its certificate. -/
theorem Distinct.draw
    (hd : Distinct w)
    {s : State} {p : Pid} {h : Handler} {c : Cert}
    (hcerts : s.db.certs = w.shared.db.certs)
    (hnext : s.nextId = w.shared.nextId + 1)
    (hh : h.storing = some c)
    (hid : c.id = w.shared.nextId) :
    Distinct (w.put s p (some h)) := by
  have hothers : ∀ q m d, q ≠ p → (w.put s p (some h)).procs q = some m →
      m.storing = some d → w.procs q = some m ∧ d.id < w.shared.nextId ∧
        ∀ x ∈ w.shared.db.certs, x.id ≠ d.id := by
    intro q m d hqp hq hm
    rw [World.put_procs_of_ne w s hqp] at hq
    exact ⟨hq, hd.drawn q m d hq hm⟩
  have hown : ∀ m d, (w.put s p (some h)).procs p = some m → m.storing = some d →
      d.id = w.shared.nextId := by
    intro m d hp hm
    rw [World.put_procs_self] at hp
    rw [← Option.some.inj hp, hh] at hm
    rw [← Option.some.inj hm]
    exact hid
  constructor
  · intro x hx
    have hlt := hd.ids x (hcerts ▸ hx)
    show x.id < s.nextId
    omega
  · show UniqueKey Cert.id s.db.certs
    rw [hcerts]
    exact hd.key
  · intro q m d hq hm
    show d.id < s.nextId ∧ ∀ x ∈ s.db.certs, x.id ≠ d.id
    rw [hcerts, hnext]
    by_cases hqp : q = p
    · subst hqp
      have heq := hown m d hq hm
      refine ⟨by omega, ?_⟩
      intro x hx
      have := hd.ids x hx
      omega
    · rcases hothers q m d hqp hq hm with ⟨_, hlt, hne⟩
      exact ⟨by omega, hne⟩
  · intro q r m n d e hqr hq hm hr hn
    by_cases hqp : q = p
    · subst hqp
      have heq := hown m d hq hm
      have hlt := (hothers r n e hqr.symm hr hn).2.1
      omega
    · rcases hothers q m d hqp hq hm with ⟨hq₀, hlt, _⟩
      by_cases hrp : r = p
      · subst hrp
        have heq := hown n e hr hn
        omega
      · exact hd.apart q r m n d e hqr hq₀ hm (hothers r n e hrp hr hn).1 hn

/-- A handler inserts the certificate whose id it drew. -/
theorem Distinct.insert
    (hd : Distinct w)
    {s : State} {p : Pid} {h h' : Handler} {c : Cert}
    (hp : w.procs p = some h)
    (hh : h.storing = some c)
    (hcerts : s.db.certs = w.shared.db.certs ++ [c])
    (hnext : w.shared.nextId ≤ s.nextId)
    (hh' : h'.storing = none) :
    Distinct (w.put s p (some h')) := by
  rcases hd.drawn p h c hp hh with ⟨hlt, hne⟩
  have hothers := storing_put (w := w) (s := s) (p := p) (l := some h') (by
    intro m hm
    rw [← Option.some.inj hm]
    exact hh')
  constructor
  · intro x hx
    show x.id < s.nextId
    rw [World.put_shared, hcerts] at hx
    rcases List.mem_append.mp hx with hold | hnew
    · exact Nat.lt_of_lt_of_le (hd.ids x hold) hnext
    · rw [List.mem_singleton] at hnew
      exact hnew ▸ Nat.lt_of_lt_of_le hlt hnext
  · show UniqueKey Cert.id s.db.certs
    rw [hcerts]
    exact hd.key.append hne
  · intro q m d hq hm
    rcases hothers q m d hq hm with ⟨hqp, hq⟩
    rcases hd.drawn q m d hq hm with ⟨hdlt, hdne⟩
    refine ⟨Nat.lt_of_lt_of_le hdlt hnext, ?_⟩
    intro x hx
    rw [World.put_shared, hcerts] at hx
    rcases List.mem_append.mp hx with hold | hnew
    · exact hdne x hold
    · rw [List.mem_singleton] at hnew
      exact hnew ▸ hd.apart p q h m c d (Ne.symm hqp) hp hh hq hm
  · intro q r m n d e hqr hq hm hr hn
    exact hd.apart q r m n d e hqr (hothers q m d hq hm).2 hm (hothers r n e hr hn).2 hn

/-- One step keeps certificate ids distinct. -/
theorem Distinct.exec
    {a : Action Choice Request Outside}
    (hd : Distinct w)
    (hx : frontend.exec w a = some w') :
    Distinct w' := by
  have hstart : ∀ r : Request, (start r).storing = none := by
    intro r
    cases r <;> rfl
  cases a with
  | spawn p r =>
      rcases Program.exec_spawn hx with ⟨_, rfl⟩
      refine hd.sub rfl (Nat.le_refl _) ?_
      intro q h c hq hh
      refine ⟨h, (storing_put ?_ q h c hq hh).2, hh⟩
      intro m hm
      rw [← Option.some.inj hm]
      exact hstart r
  | act p k =>
      rcases Program.exec_act hx with ⟨h, s', l, hp, hact, rfl⟩
      rcases frontend_act hact with ⟨e, h', hnext, rfl, rfl⟩
      have hle : w.shared.nextId ≤ (w.shared.apply e).nextId := Nat.le_add_right _ _
      rcases next_storing hnext with hnone | ⟨c, hstmt, hdraws, hh', hid⟩
      · by_cases hinsert : ∃ c, e.stmt = .insertCert c
        · rcases hinsert with ⟨c, hstmt⟩
          have hruns := next_runs hnext
          simp only [hstmt] at hruns
          rcases hruns with ⟨o, authzs, rfl⟩
          refine hd.insert hp rfl ?_ hle hnone
          simp [hstmt, Stmt.run]
        · have hother : ∀ c, e.stmt ≠ .insertCert c := fun c hc => hinsert ⟨c, hc⟩
          refine hd.sub (Stmt.certs_other hother _) hle ?_
          intro q m c hq hm
          refine ⟨m, (storing_put ?_ q m c hq hm).2, hm⟩
          intro x hx'
          rw [← Option.some.inj hx']
          exact hnone
      · refine hd.draw ?_ ?_ hh' hid
        · simp only [State.apply_db]
          rw [show e.stmt = .none from hstmt]
          rfl
        · simp only [State.apply_nextId]
          rw [show e.draws = 1 from hdraws]
  | crash p =>
      rcases Program.exec_crash hx with ⟨h, hp, rfl⟩
      refine hd.sub (die_rows h w.shared).certs ?_ ?_
      · simp only [frontend, die, World.put_shared]
        split <;> exact Nat.le_refl _
      · intro q m c hq hm
        exact ⟨m, (storing_put (by simp) q m c hq hm).2, hm⟩
  | env e =>
      rcases Program.exec_env hx with ⟨s', hs, rfl⟩
      have hs' : s' = outside w.shared e := (Option.some.inj hs).symm
      subst hs'
      refine hd.sub (outside_rows w.shared e).1.certs ?_ fun q m c hq hm => ⟨m, hq, hm⟩
      exact (outside_change false 0 (.replied .collected) w.shared e).nextId

end Distinct

end Acme
end Yca
