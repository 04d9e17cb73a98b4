import Yca.Acme.Registry

/-!
# Registration under concurrency

What holds of `accounts` and `eab_creds` in every interleaving of the account
pages and the operator's commands (`Consistent`), and what each step of a handler
promises (`orderly`).  The tables are kept in order by the statements alone: the
update of `InsertAccountEAB` and the UNIQUE columns decide, whatever a handler
read before.  The scripts add that nothing is written before an answer that
refuses.
-/

namespace Yca
namespace Acme
namespace Registry

open Yca.Core

/-- What holds of the tables, given the credentials ever made. -/
structure Consistent (t : Tables) (made : List EabRow) : Prop where
  ids : UniqueKey AccountRow.id t.accounts
  thumbprints : UniqueKey AccountRow.thumbprint t.accounts
  named : ∀ a ∈ t.accounts, a.id ≠ ""
  kids : UniqueKey EabRow.kid t.creds
  madeOnce : UniqueKey EabRow.kid made
  origin : ∀ c ∈ t.creds, ∃ c₀ ∈ made, c₀.kid = c.kid ∧ c₀.reusable = c.reusable
  registeredWith : ∀ a ∈ t.accounts, ∃ c₀ ∈ made, c₀.kid = a.eabKid
  /-- A single-use credential has one account at most, deleted or not. -/
  single : ∀ c₀ ∈ made, c₀.reusable = false →
    ∀ a ∈ t.accounts, ∀ b ∈ t.accounts, a.eabKid = c₀.kid → b.eabKid = c₀.kid → a = b
  /-- The row of a single-use credential names its account. -/
  bound : ∀ c ∈ t.creds, c.reusable = false →
    ∀ a ∈ t.accounts, a.eabKid = c.kid → c.accountId = a.id
  binding : ∀ c ∈ t.creds, c.reusable = false → c.accountId ≠ "" →
    ∃ a ∈ t.accounts, a.id = c.accountId ∧ a.eabKid = c.kid

section Statements

variable {t : Tables}

/-- What a committed `InsertAccountEAB` found and did. -/
theorem insertAccountEAB_eq_ok
    {a : AccountRow}
    {now : Nat}
    {t' : Tables}
    (h : insertAccountEAB a now t = .ok t') :
    (∃ c ∈ t.creds, binds a.eabKid now c = true) ∧
      (∀ b ∈ t.accounts, b.id ≠ a.id ∧ b.thumbprint ≠ a.thumbprint) ∧
      t' =
        { accounts := t.accounts ++ [{ a with created := unix now }]
          creds := updateWhere (binds a.eabKid now) (EabRow.bind a.id) t.creds } := by
  simp only [insertAccountEAB] at h
  split at h
  · rename_i hbinds
    split at h
    · simp at h
    · rename_i hfree
      refine ⟨by simpa using hbinds, ?_, (Except.ok.inj h).symm⟩
      intro b hb
      simp only [List.any_eq_true, Bool.or_eq_true, beq_iff_eq, not_exists, not_and,
        not_or] at hfree
      exact hfree b hb
  · split at h
    · simp at h
    · split at h <;> simp at h

/-- The row that is bound: of that kid, unexpired, and reusable or still free. -/
theorem binds_iff
    {kid : String}
    {now : Nat}
    {c : EabRow} :
    binds kid now c = true ↔
      c.kid = kid ∧ (c.reusable = true ∨ c.accountId = "") ∧
        (c.expires = 0 ∨ (unix now : Int) < c.expires) := by
  simp [binds, and_assoc]

@[simp] theorem bind_kid (id : String) (c : EabRow) :
    (c.bind id).kid = c.kid := by
  unfold EabRow.bind
  split <;> rfl

@[simp] theorem bind_reusable (id : String) (c : EabRow) :
    (c.bind id).reusable = c.reusable := by
  unfold EabRow.bind
  split <;> rfl

theorem bind_accountId
    {id : String}
    {c : EabRow}
    (hc : c.reusable = false) :
    (c.bind id).accountId = id := by
  simp [EabRow.bind, hc]

theorem setAccountKey_eq_some
    {id jwk tp : String}
    {t' : Tables}
    (h : setAccountKey id jwk tp t = some t') :
    ((∃ a ∈ t.accounts, a.id = id) → ∀ a ∈ t.accounts, a.id ≠ id → a.thumbprint ≠ tp) ∧
      t' =
        { t with
          accounts :=
            updateWhere (fun a => a.id == id)
              (fun a => { a with jwk, thumbprint := tp }) t.accounts } := by
  simp only [setAccountKey] at h
  split at h
  · simp at h
  · rename_i hfree
    refine ⟨?_, (Option.some.inj h).symm⟩
    intro hrow a ha hne htp
    apply hfree
    simp only [Bool.and_eq_true, List.any_eq_true, beq_iff_eq, bne_iff_ne]
    exact ⟨hrow, a, ha, hne, htp⟩

end Statements

namespace Consistent

variable {t : Tables} {made : List EabRow}

theorem empty :
    Consistent ⟨[], []⟩ [] := by
  constructor <;> simp

/-- The accounts are rewritten, in neither id nor credential. -/
theorem rewrite
    (h : Consistent t made)
    (p : AccountRow → Bool)
    {f : AccountRow → AccountRow}
    (hid : ∀ a, (f a).id = a.id)
    (hkid : ∀ a, (f a).eabKid = a.eabKid)
    (hthumbprints : UniqueKey AccountRow.thumbprint (updateWhere p f t.accounts)) :
    Consistent { t with accounts := updateWhere p f t.accounts } made := by
  have hids : UniqueKey AccountRow.id (updateWhere p f t.accounts) := h.ids.updateWhere p hid
  have hback : ∀ a ∈ updateWhere p f t.accounts,
      ∃ b ∈ t.accounts, b.id = a.id ∧ b.eabKid = a.eabKid := by
    intro a ha
    obtain ⟨b, hb, ⟨_, rfl⟩ | ⟨_, rfl⟩⟩ := mem_updateWhere.mp ha
    · exact ⟨b, hb, (hid b).symm, (hkid b).symm⟩
    · exact ⟨a, hb, rfl, rfl⟩
  constructor
  · exact hids
  · exact hthumbprints
  · intro a ha
    obtain ⟨b, hb, hbid, _⟩ := hback a ha
    exact hbid ▸ h.named b hb
  · exact h.kids
  · exact h.madeOnce
  · exact h.origin
  · intro a ha
    obtain ⟨b, hb, _, hbkid⟩ := hback a ha
    exact hbkid ▸ h.registeredWith b hb
  · intro c₀ hc₀ hreusable a ha a' ha' hkid₁ hkid₂
    obtain ⟨b, hb, hbid, hbkid⟩ := hback a ha
    obtain ⟨b', hb', hbid', hbkid'⟩ := hback a' ha'
    have hsame : b = b' :=
      h.single c₀ hc₀ hreusable b hb b' hb' (hbkid.trans hkid₁) (hbkid'.trans hkid₂)
    refine hids.eq ha ha' ?_
    rw [← hbid, ← hbid', hsame]
  · intro c hc hreusable a ha hkid₁
    obtain ⟨b, hb, hbid, hbkid⟩ := hback a ha
    exact hbid ▸ h.bound c hc hreusable b hb (hbkid.trans hkid₁)
  · intro c hc hreusable hset
    obtain ⟨a, ha, haid, hakid⟩ := h.binding c hc hreusable hset
    by_cases hp : p a = true
    · exact ⟨f a, mem_updateWhere.mpr ⟨a, ha, .inl ⟨hp, rfl⟩⟩, (hid a).trans haid,
        (hkid a).trans hakid⟩
    · have hp' : p a = false := by simpa using hp
      exact ⟨a, mem_updateWhere.mpr ⟨a, ha, .inr ⟨hp', rfl⟩⟩, haid, hakid⟩

theorem setAccountStatus
    (h : Consistent t made)
    (id status : String) :
    Consistent (setAccountStatus id status t) made := by
  refine h.rewrite _ (fun _ => rfl) (fun _ => rfl) ?_
  exact h.thumbprints.updateWhere _ fun _ => rfl

theorem setAccountKey
    (h : Consistent t made)
    {id jwk tp : String}
    {t' : Tables}
    (hset : setAccountKey id jwk tp t = some t') :
    Consistent t' made := by
  obtain ⟨hfree, rfl⟩ := setAccountKey_eq_some hset
  refine h.rewrite _ (fun _ => rfl) (fun _ => rfl) ?_
  -- the row rewritten is alone with its new thumbprint
  have hpair : t.accounts.Pairwise fun a b => a.id ≠ b.id ∧ a.thumbprint ≠ b.thumbprint := by
    have hids : t.accounts.Pairwise fun a b => a.id ≠ b.id := by
      simpa [UniqueKey, List.Nodup, List.pairwise_map] using h.ids
    have htps : t.accounts.Pairwise fun a b => a.thumbprint ≠ b.thumbprint := by
      simpa [UniqueKey, List.Nodup, List.pairwise_map] using h.thumbprints
    exact hids.and htps
  simp only [UniqueKey, updateWhere, List.Nodup, List.pairwise_map]
  refine List.Pairwise.imp_of_mem ?_ hpair
  rintro a b ha hb ⟨hne, htp⟩
  by_cases hida : a.id = id
  · have hidb : b.id ≠ id := fun heq => hne (hida.trans heq.symm)
    simpa [hida, hidb] using (hfree ⟨a, ha, hida⟩ b hb hidb).symm
  · by_cases hidb : b.id = id
    · simpa [hida, hidb] using hfree ⟨b, hb, hidb⟩ a ha hida
    · simpa [hida, hidb] using htp

/-- `InsertAccountEAB`. -/
theorem insertAccountEAB
    (h : Consistent t made)
    {a : AccountRow}
    (ha : a.id ≠ "")
    {now : Nat}
    {t' : Tables}
    (hinsert : insertAccountEAB a now t = .ok t') :
    Consistent t' made := by
  obtain ⟨⟨c, hc, hbinds⟩, hfree, rfl⟩ := insertAccountEAB_eq_ok hinsert
  obtain ⟨hckid, hopen, _⟩ := binds_iff.mp hbinds
  obtain ⟨c₀, hc₀, hc₀kid, hc₀reusable⟩ := h.origin c hc
  -- a single-use credential that binds an account has bound none before
  have hnone : c.reusable = false → ∀ b ∈ t.accounts, b.eabKid ≠ a.eabKid := by
    intro hsingle b hb hkid
    have hempty : c.accountId = "" := by simpa [hsingle] using hopen
    have hbound := h.bound c hc hsingle b hb (hkid.trans hckid.symm)
    exact h.named b hb (hbound ▸ hempty)
  have hmem : ∀ {P : AccountRow → Prop},
      (∀ b ∈ t.accounts, P b) → P { a with created := unix now } →
        ∀ b ∈ t.accounts ++ [{ a with created := unix now }], P b := by
    intro P hold hnew b hb
    rcases List.mem_append.mp hb with hb | hb
    · exact hold b hb
    · exact List.mem_singleton.mp hb ▸ hnew
  have hkids : UniqueKey EabRow.kid (updateWhere (binds a.eabKid now) (EabRow.bind a.id) t.creds) :=
    h.kids.updateWhere _ (bind_kid a.id)
  have hrow : ∀ c' ∈ t.creds, c'.kid = a.eabKid → c' = c := by
    intro c' hc' hkid
    exact h.kids.eq hc' hc (hkid.trans hckid.symm)
  constructor
  · exact h.ids.append fun b hb => (hfree b hb).1
  · exact h.thumbprints.append fun b hb => (hfree b hb).2
  · exact hmem h.named ha
  · exact hkids
  · exact h.madeOnce
  · intro c' hc'
    obtain ⟨d, hd, ⟨_, rfl⟩ | ⟨_, rfl⟩⟩ := mem_updateWhere.mp hc'
    · simpa using h.origin d hd
    · exact h.origin c' hd
  · exact hmem h.registeredWith ⟨c₀, hc₀, hc₀kid.trans hckid⟩
  · intro d₀ hd₀ hsingle
    have hclash : ∀ b ∈ t.accounts, b.eabKid = d₀.kid → a.eabKid = d₀.kid → False := by
      intro b hb hkid₁ hkid₂
      have hd₀c₀ : d₀ = c₀ :=
        h.madeOnce.eq hd₀ hc₀ (hkid₂.symm.trans (hckid.symm.trans hc₀kid.symm))
      refine hnone ?_ b hb (hkid₁.trans hkid₂.symm)
      rw [← hc₀reusable, ← hd₀c₀]
      exact hsingle
    refine hmem ?_ ?_
    · intro b hb
      refine hmem (fun b' hb' => h.single d₀ hd₀ hsingle b hb b' hb') ?_
      intro hkid₁ hkid₂
      exact (hclash b hb hkid₁ hkid₂).elim
    · refine hmem ?_ fun _ _ => rfl
      intro b hb hkid₁ hkid₂
      exact (hclash b hb hkid₂ hkid₁).elim
  · intro c' hc' hsingle
    obtain ⟨d, hd, ⟨hbd, rfl⟩ | ⟨hbd, rfl⟩⟩ := mem_updateWhere.mp hc'
    · have hdkid := (binds_iff.mp hbd).1
      have hdsingle : d.reusable = false := by simpa using hsingle
      refine hmem ?_ fun _ => bind_accountId hdsingle
      intro b hb hkid
      have hdc := hrow d hd hdkid
      refine absurd ?_ (hnone (hdc ▸ hdsingle) b hb)
      simpa [hdkid] using hkid
    · refine hmem (fun b hb => h.bound c' hd hsingle b hb) ?_
      intro hkid
      have hc'c := hrow c' hd hkid.symm
      rw [hc'c, hbinds] at hbd
      exact absurd hbd (by decide)
  · intro c' hc' hsingle hset
    obtain ⟨d, hd, ⟨hbd, rfl⟩ | ⟨_, rfl⟩⟩ := mem_updateWhere.mp hc'
    · have hdsingle : d.reusable = false := by simpa using hsingle
      refine ⟨{ a with created := unix now }, by simp, (bind_accountId hdsingle).symm, ?_⟩
      simpa using (binds_iff.mp hbd).1.symm
    · obtain ⟨b, hb, hbid, hbkid⟩ := h.binding c' hd hsingle hset
      exact ⟨b, List.mem_append_left _ hb, hbid, hbkid⟩

/-- A credential with a new kid is made. -/
theorem insertEab
    (h : Consistent t made)
    {c : EabRow}
    (hfree : c.accountId = "")
    (hfresh : ∀ b ∈ made, b.kid ≠ c.kid) :
    Consistent { t with creds := t.creds ++ [c] } (made ++ [c]) := by
  have hnone : ∀ a ∈ t.accounts, a.eabKid ≠ c.kid := by
    intro a ha hkid
    obtain ⟨c₀, hc₀, hc₀kid⟩ := h.registeredWith a ha
    exact hfresh c₀ hc₀ (hc₀kid.trans hkid)
  constructor
  · exact h.ids
  · exact h.thumbprints
  · exact h.named
  · refine h.kids.append ?_
    intro b hb hkid
    obtain ⟨c₀, hc₀, hc₀kid, _⟩ := h.origin b hb
    exact hfresh c₀ hc₀ (hc₀kid.trans hkid)
  · exact h.madeOnce.append hfresh
  · intro b hb
    rcases List.mem_append.mp hb with hb | hb
    · obtain ⟨c₀, hc₀, hrest⟩ := h.origin b hb
      exact ⟨c₀, List.mem_append_left _ hc₀, hrest⟩
    · rw [List.mem_singleton] at hb
      subst hb
      exact ⟨b, by simp, rfl, rfl⟩
  · intro a ha
    obtain ⟨c₀, hc₀, hkid⟩ := h.registeredWith a ha
    exact ⟨c₀, List.mem_append_left _ hc₀, hkid⟩
  · intro c₀ hc₀ hsingle a ha b hb hkid₁ hkid₂
    rcases List.mem_append.mp hc₀ with hc₀ | hc₀
    · exact h.single c₀ hc₀ hsingle a ha b hb hkid₁ hkid₂
    · rw [List.mem_singleton] at hc₀
      subst hc₀
      exact absurd hkid₁ (hnone a ha)
  · intro b hb hsingle a ha hkid
    rcases List.mem_append.mp hb with hb | hb
    · exact h.bound b hb hsingle a ha hkid
    · rw [List.mem_singleton] at hb
      subst hb
      exact absurd hkid (hnone a ha)
  · intro b hb hsingle hset
    rcases List.mem_append.mp hb with hb | hb
    · exact h.binding b hb hsingle hset
    · rw [List.mem_singleton] at hb
      subst hb
      exact absurd hfree hset

/-- A credential is deleted. -/
theorem deleteEab
    (h : Consistent t made)
    (kid : String) :
    Consistent { t with creds := t.creds.filter fun c => c.kid != kid } made where
  ids := h.ids
  thumbprints := h.thumbprints
  named := h.named
  kids := h.kids.filter _
  madeOnce := h.madeOnce
  origin c hc := h.origin c (List.mem_of_mem_filter hc)
  registeredWith := h.registeredWith
  single := h.single
  bound c hc := h.bound c (List.mem_of_mem_filter hc)
  binding c hc := h.binding c (List.mem_of_mem_filter hc)

end Consistent

section Histories

@[simp] theorem credentials_append (log es : List Entry) :
    credentials (log ++ es) = credentials log ++ credentials es := by
  simp [credentials]

@[simp] theorem credentials_handler (p : Pid) (e : Event) (time : Nat) :
    credentials [.handler p e time] = [] := by
  rfl

theorem mem_credentials
    {log : List Entry}
    {c : EabRow} :
    c ∈ credentials log ↔ .operator (.insertEab c) ∈ log := by
  simp only [credentials, List.mem_filterMap]
  constructor
  · rintro ⟨e, he, hc⟩
    split at hc
    · obtain rfl := Option.some.inj hc
      exact he
    · simp at hc
  · intro hc
    exact ⟨_, hc, rfl⟩

/-- An event that changes the tables. -/
def Event.writes : Event → Bool
  | .registered .. => true
  | .rolled .. => true
  | .statusSet .. => true
  | _ => false

theorem Event.run_of_quiet
    {e : Event}
    (he : e.writes = false)
    (t : Tables) :
    e.run t = t := by
  cases e with
  | quiet => rfl
  | registered a time => simp [Event.writes] at he
  | rolled row old jwk tp => simp [Event.writes] at he
  | statusSet id status => simp [Event.writes] at he
  | answered a => rfl

/-- The steps that process `p` has taken, oldest first, each with the time on the
clock. -/
def steps (p : Pid) (log : List Entry) : List (Event × Nat) :=
  log.filterMap fun x =>
    match x with
    | .handler q e time => if q = p then some (e, time) else none
    | .operator _ => none

@[simp] theorem steps_append (p : Pid) (log es : List Entry) :
    steps p (log ++ es) = steps p log ++ steps p es := by
  simp [steps]

@[simp] theorem steps_operator (p : Pid) (x : Outside) :
    steps p [.operator x] = [] := by
  rfl

@[simp] theorem steps_own (p : Pid) (e : Event) (time : Nat) :
    steps p [.handler p e time] = [(e, time)] := by
  simp [steps]

theorem steps_other
    {p q : Pid}
    (hqp : q ≠ p)
    (e : Event)
    (time : Nat) :
    steps p [.handler q e time] = [] := by
  simp [steps, hqp]

theorem mem_steps
    {p : Pid}
    {log : List Entry}
    {e : Event}
    {time : Nat} :
    (e, time) ∈ steps p log ↔ .handler p e time ∈ log := by
  simp only [steps, List.mem_filterMap]
  constructor
  · rintro ⟨x, hx, hstep⟩
    split at hstep
    · split at hstep
      · rename_i hq
        obtain ⟨rfl, rfl⟩ := Prod.mk.inj (Option.some.inj hstep)
        exact hq ▸ hx
      · simp at hstep
    · simp at hstep
  · intro hx
    exact ⟨_, hx, by simp⟩

/-- Process `p` has only read so far. -/
def Clear (p : Pid) (s : Desk) : Prop :=
  ∀ e time, .handler p e time ∈ s.log → e = .quiet

/-- Process `p` has not answered yet. -/
def Open (p : Pid) (s : Desk) : Prop :=
  ∀ a time, .handler p (.answered a) time ∉ s.log

/-- Whoever answered with a problem has written nothing. -/
def RefusedClean (log : List Entry) : Prop :=
  ∀ p location pr time, .handler p (.answered (.problem location pr)) time ∈ log →
    ∀ e time', .handler p e time' ∈ log → e.writes = false

theorem mem_apply_log
    {p q : Pid}
    {e e' : Event}
    {time : Nat}
    {s : Desk} :
    .handler q e' time ∈ (machine.apply p e s).log ↔
      .handler q e' time ∈ s.log ∨ q = p ∧ e' = e ∧ time = s.now := by
  simp [machine]

theorem Clear.quiet
    {p : Pid}
    {s : Desk}
    (h : Clear p s) :
    Clear p (machine.apply p .quiet s) := by
  intro e time he
  rcases mem_apply_log.mp he with he | ⟨_, he, _⟩
  · exact h e time he
  · exact he

theorem Clear.open
    {p : Pid}
    {s : Desk}
    (h : Clear p s) :
    Open p s := by
  intro a time ha
  have := h _ time ha
  simp at this

/-- After a write the answer is still open. -/
theorem Clear.open_write
    {p : Pid}
    {s : Desk}
    (h : Clear p s)
    {e : Event}
    (he : e.writes = true) :
    Open p (machine.apply p e s) := by
  intro a time ha
  rcases mem_apply_log.mp ha with ha | ⟨_, rfl, _⟩
  · exact h.open a time ha
  · simp [Event.writes] at he

/-- An answer that refuses comes from a process that has written nothing. -/
theorem RefusedClean.step
    {p : Pid}
    {s : Desk}
    (h : RefusedClean s.log)
    {e : Event}
    (hopen : Open p s)
    (hclear : ∀ location pr, e = .answered (.problem location pr) → Clear p s) :
    RefusedClean (machine.apply p e s).log := by
  intro q location pr time hanswer e' time' he'
  rcases mem_apply_log.mp hanswer with hold | ⟨rfl, rfl, _⟩
  · rcases mem_apply_log.mp he' with he' | ⟨rfl, _, _⟩
    · exact h q location pr time hold e' time' he'
    · exact absurd hold (hopen _ _)
  · rcases mem_apply_log.mp he' with he' | ⟨_, rfl, _⟩
    · rw [hclear location pr rfl e' time' he']
      rfl
    · rfl

end Histories

section Conduct

variable {κ : Type} (C : Codec κ)

/-- A stored key and its thumbprint. -/
def Keyed (jwk tp : String) : Prop :=
  ∃ key, C.encodeKey key = some jwk ∧ C.thumbprint key = some tp

/-- What a handler promises of what it does: the clock of a registration was read
in the step before, and a refusal is all it did. -/
def Terms (p : Pid) (s : Desk) : Event → Prop
  | .registered a time =>
      a.id ≠ "" ∧ Keyed C a.jwk a.thumbprint ∧
        (steps p s.log).getLast? = some (.quiet, time)
  | .rolled row old jwk tp =>
      old = row.thumbprint ∧ Keyed C jwk tp ∧
        (setAccountKey row.id jwk tp s.tables).isSome = true
  | .answered (.problem ..) => Clear p s
  | _ => True

/-- What a handler promises of a step. -/
structure Promises (p : Pid) (s : Desk) (e : Event) : Prop where
  unanswered : Open p s
  terms : Terms C p s e

/-- The tables are consistent, the others add to the history but not in a
process's name, and a process keeps its promises. -/
def orderly (allow : Desk → Event → Prop) : Discipline Desk Event where
  inv s := Consistent s.tables (credentials s.log) ∧ RefusedClean s.log
  Rely p s s' :=
    (∀ x ∈ s.log, x ∈ s'.log) ∧ steps p s'.log = steps p s.log
  allow _ := allow
  Meets := Promises C

theorem Consistent.run
    {t : Tables}
    {made : List EabRow}
    (h : Consistent t made)
    {p : Pid}
    {s : Desk}
    {e : Event}
    (he : Terms C p s e) :
    Consistent (e.run t) made := by
  cases e with
  | quiet => exact h
  | registered a time =>
      simp only [Event.run]
      split
      · rename_i t' hinsert
        exact h.insertAccountEAB he.1 hinsert
      · exact h
  | rolled row old jwk tp =>
      simp only [Event.run]
      cases hset : Registry.setAccountKey row.id jwk tp t with
      | none => exact h
      | some t' => exact h.setAccountKey hset
  | statusSet id status => exact h.setAccountStatus id status
  | answered a => exact h

theorem orderly_sound (allow : Desk → Event → Prop) :
    (orderly C allow).Sound machine where
  refl p s := ⟨fun _ hx => hx, rfl⟩
  trans p s₁ s₂ s₃ h₁ h₂ := ⟨fun x hx => h₂.1 x (h₁.1 x hx), h₂.2.trans h₁.2⟩
  event p s e hinv _ hmeets := by
    refine ⟨⟨?_, ?_⟩, ?_⟩
    · simpa [machine] using hinv.1.run C hmeets.terms
    · refine hinv.2.step hmeets.unanswered ?_
      rintro location pr rfl
      exact hmeets.terms
    · intro q hq
      refine ⟨fun x hx => List.mem_append_left _ hx, ?_⟩
      simp [machine, steps_other hq.symm]
  die p s hinv := ⟨hinv, fun q _ => ⟨fun _ hx => hx, rfl⟩⟩
  env x s s' hinv hx := by
    have hlog : ∀ q e time,
        .handler q e time ∈ s.log ++ [.operator x] → .handler q e time ∈ s.log := by
      intro q e time he
      rcases List.mem_append.mp he with he | he
      · exact he
      · simp at he
    simp only [machine] at hx
    split at hx
    · rename_i hfresh
      obtain ⟨t, ht, rfl⟩ := Option.map_eq_some_iff.mp hx
      have hrefused : RefusedClean (s.log ++ [.operator x]) := by
        intro q location pr time hanswer e time' he
        exact hinv.2 q location pr time (hlog _ _ _ hanswer) e time' (hlog _ _ _ he)
      refine ⟨⟨?_, hrefused⟩, fun q => ⟨fun y hy => List.mem_append_left _ hy, by simp⟩⟩
      cases x with
      | tick d =>
          obtain rfl := Option.some.inj ht
          simpa [credentials] using hinv.1
      | insertEab c =>
          simp only [Outside.run] at ht
          split at ht
          · simp at ht
          · rename_i hfree
            obtain rfl := Option.some.inj ht
            simp only [Bool.or_eq_true, bne_iff_ne, ne_eq, not_or, not_not] at hfree
            simp only [credentials_append]
            refine hinv.1.insertEab hfree.2 ?_
            simpa [Outside.fresh] using hfresh
      | deleteEab kid =>
          obtain rfl := Option.some.inj ht
          simpa [credentials] using hinv.1.deleteEab kid
    · simp at hx

end Conduct

/-- What is left of a handler keeps its promises as long as it has written
nothing. -/
def Fine {κ : Type} (C : Codec κ) (allow : Desk → Event → Prop) (p : Pid) (l : Handler) : Prop :=
  ∀ s, Clear p s → (orderly C allow).Safe machine p l s

section Scripts

variable {κ : Type} {C : Codec κ} {S : Server} {allow : Desk → Event → Prop} {p : Pid}

/-- Nobody acts in the name of another. -/
theorem own_of_rely
    {s s' : Desk}
    (hs : (orderly C allow).Rely p s s')
    {e : Event}
    {time : Nat}
    (he : .handler p e time ∈ s'.log) :
    .handler p e time ∈ s.log := by
  rw [← mem_steps, hs.2] at he
  exact mem_steps.mp he

theorem Clear.rely
    {s s' : Desk}
    (h : Clear p s)
    (hs : (orderly C allow).Rely p s s') :
    Clear p s' := by
  intro e time he
  exact h e time (own_of_rely hs he)

theorem fine_halt :
    Fine C allow p .halt := by
  intro s _
  trivial

theorem Open.rely
    {s s' : Desk}
    (h : Open p s)
    (hs : (orderly C allow).Rely p s s') :
    Open p s' := by
  intro a time ha
  exact h a time (own_of_rely hs ha)

/-- An account page promises only that it is the answer. -/
theorem safe_accountPage
    (code : Nat)
    (location : Option String)
    (a : AccountRow)
    {s : Desk}
    (hs : Open p s) :
    (orderly C allow).Safe machine p (answer (accountPage S code location a)) s := by
  intro s' k hrely _ _ _
  refine ⟨⟨hs.rely hrely, ?_⟩, trivial⟩
  simp only [accountPage]
  split <;> trivial

theorem fine_accountPage (code : Nat) (location : Option String) (a : AccountRow) :
    Fine C allow p (answer (accountPage S code location a)) := by
  intro s hs
  exact safe_accountPage code location a hs.open

theorem fine_problem (location : Option String) (pr : Problem) :
    Fine C allow p (answer (.problem location pr)) := by
  intro s hs s' k hrely _ _ _
  refine ⟨⟨(hs.rely hrely).open, ?_⟩, trivial⟩
  simp only
  split
  · exact hs.rely hrely
  · trivial

theorem fine_refuse (status : Nat) (code detail : String) :
    Fine C allow p (refuse status code detail) :=
  fine_problem none _

/-- A step that writes nothing; what it saw may be used by the rest. -/
theorem fine_step
    {ready : Choice → Desk → Bool}
    {next : Choice → Desk → Handler}
    (h : ∀ k s, ready k s = true → Clear p s →
      (orderly C allow).Safe machine p (next k s) (machine.apply p .quiet s)) :
    Fine C allow p (.step ready (fun _ _ => .quiet) next) := by
  intro s hs s' k hrely _ hready _
  exact ⟨⟨(hs.rely hrely).open, trivial⟩, h k s' hready (hs.rely hrely)⟩

theorem fine_look
    {next : Choice → Desk → Handler}
    (h : ∀ k s, Fine C allow p (next k s)) :
    Fine C allow p (look next) := by
  refine fine_step ?_
  intro k s _ hs
  exact h k s _ hs.quiet

theorem fine_verified
    {path : String}
    {allowJWK : Bool}
    {body : Option String}
    {next : VerifiedRequest κ → Handler}
    (h : ∀ q, Fine C allow p (next q)) :
    Fine C allow p (verified C S path allowJWK body next) := by
  unfold verified
  split
  · exact fine_problem none _
  · refine fine_look ?_
    intro k s
    split
    · exact fine_problem none _
    · refine fine_look ?_
      intro k' s'
      split
      · exact fine_problem none _
      · exact h _

theorem fine_verifyEAB
    {raw outerURL : String}
    {key : κ}
    {next : EabRow → Handler}
    (h : ∀ cred, Fine C allow p (next cred)) :
    Fine C allow p (verifyEAB C raw outerURL key next) := by
  unfold verifyEAB
  split
  · exact fine_refuse _ _ _
  · split
    · split
      · exact fine_refuse _ _ _
      · refine fine_look ?_
        intro k s
        split
        · exact fine_refuse _ _ _
        · split
          · exact fine_refuse _ _ _
          · split
            · exact fine_refuse _ _ _
            · split
              · exact fine_refuse _ _ _
              · split
                · split
                  · exact h _
                  · exact fine_refuse _ _ _
                · exact fine_refuse _ _ _
    · exact fine_refuse _ _ _

/-- Of a write only the event that goes through is promised, and the rest sees
whether it did. -/
theorem safe_write
    {event : Desk → Option Event}
    {next : Choice → Desk → Handler}
    {s : Desk}
    (hs : Clear p s)
    (hevent : ∀ s', (orderly C allow).Rely p s s' → ∀ e, event s' = some e →
      e.writes = true ∧ Terms C p s' e)
    (hdone : ∀ k s' e t, k.ok = true → event s' = some e → Open p t →
      (orderly C allow).Safe machine p (next k s') t)
    (hfailed : ∀ k s', k.ok = false ∨ event s' = none → Fine C allow p (next k s')) :
    (orderly C allow).Safe machine p (write event next) s := by
  intro s' k hrely _ _ _
  have hs' := hs.rely hrely
  by_cases hok : k.ok = true
  · cases he : event s' with
    | none =>
        have hemit : (if k.ok then (event s').getD .quiet else .quiet) = .quiet := by
          simp [he]
        simp only [hemit]
        exact ⟨⟨hs'.open, trivial⟩, hfailed k s' (.inr he) _ hs'.quiet⟩
    | some e =>
        have hemit : (if k.ok then (event s').getD .quiet else .quiet) = e := by
          simp [hok, he]
        obtain ⟨hwrites, hterms⟩ := hevent s' hrely e he
        simp only [hemit]
        exact ⟨⟨hs'.open, hterms⟩, hdone k s' e _ hok he (hs'.open_write hwrites)⟩
  · have hemit : (if k.ok then (event s').getD .quiet else .quiet) = .quiet := by
      simp [hok]
    simp only [hemit]
    exact ⟨⟨hs'.open, trivial⟩, hfailed k s' (.inl (by simpa using hok)) _ hs'.quiet⟩

theorem safe_insertAccount
    {a : AccountRow}
    (ha : a.id ≠ "")
    (hkey : Keyed C a.jwk a.thumbprint)
    {now : Nat}
    {s : Desk}
    (hs : Clear p s)
    (hread : (steps p s.log).getLast? = some (.quiet, now)) :
    (orderly C allow).Safe machine p (insertAccount S a now) s := by
  refine safe_write hs ?_ ?_ ?_
  · intro s' hrely e he
    split at he
    · obtain rfl := Option.some.inj he
      exact ⟨rfl, ha, hkey, by rw [hrely.2, hread]⟩
    · simp at he
  · intro k s' e t hok he ht
    split at he
    · rename_i hinsert
      cases hresult : insertAccountEAB a now s'.tables with
      | error why => simp [hresult, Except.isOk, Except.toBool] at hinsert
      | ok t' =>
          simp only [hok, Bool.not_true, Bool.false_eq_true, if_false]
          exact safe_accountPage _ _ _ ht
    · simp at he
  · intro k s' hfail
    split
    · exact fine_refuse _ _ _
    · rename_i hok
      split
      · exact fine_refuse _ _ _
      · exact fine_refuse _ _ _
      · rename_i t' hinsert
        rcases hfail with hfail | hfail
        · simp [hfail] at hok
        · simp [hinsert, Except.isOk, Except.toBool] at hfail

theorem fine_newAccount (q : VerifiedRequest κ) :
    Fine C allow p (newAccountOf C S q) := by
  unfold newAccountOf
  split
  · exact fine_refuse _ _ _
  · split
    · exact fine_refuse _ _ _
    · rename_i tp htp
      refine fine_look ?_
      intro k s
      split
      · exact fine_refuse _ _ _
      · split
        · exact fine_accountPage _ _ _
        · split
          · exact fine_refuse _ _ _
          · refine fine_verifyEAB ?_
            intro cred
            split
            · exact fine_refuse _ _ _
            · rename_i jwk hjwk
              refine fine_step ?_
              intro k s hid hs
              exact safe_insertAccount (by simpa using hid) ⟨q.jwk, hjwk, htp⟩ hs.quiet
                (by simp [machine])

/-- The checks on the inner JWS establish the old key. -/
theorem innerKeys_eq_ok
    {row : AccountRow}
    {payload old newTP : String}
    {newKey : κ}
    (h : innerKeys C S row payload = .ok (old, newKey, newTP)) :
    old = row.thumbprint ∧ C.thumbprint newKey = some newTP := by
  unfold innerKeys at h
  split at h
  · split at h
    · simp at h
    · split_ifs at h
      · split at h
        · simp at h
        · split at h
          · simp at h
          · split_ifs at h
            · split at h
              · simp at h
              · rename_i oldKey _
                split_ifs at h with hold
                · split at h
                  · simp at h
                  · rename_i tp htp
                    split_ifs at h
                    · simp only [Except.ok.injEq, Prod.mk.injEq] at h
                      obtain ⟨rfl, rfl, rfl⟩ := h
                      have hthumb : C.thumbprint oldKey = some row.thumbprint := not_not.mp hold
                      exact ⟨by simp [hthumb], htp⟩
  · simp at h

theorem fine_keyChange
    (row : AccountRow)
    (payload : String) :
    Fine C allow p (keyChangeOf C S row payload) := by
  unfold keyChangeOf
  split
  · exact fine_problem none _
  · rename_i old newKey newTP hinner
    obtain ⟨hold, htp⟩ := innerKeys_eq_ok hinner
    refine fine_look ?_
    intro k s
    split
    · exact fine_refuse _ _ _
    · split
      · exact fine_problem _ _
      · split
        · exact fine_refuse _ _ _
        · rename_i jwk hjwk
          intro t ht
          refine safe_write ht ?_ ?_ ?_
          · intro s' _ e he
            split at he
            · rename_i hset
              obtain rfl := Option.some.inj he
              exact ⟨rfl, hold, ⟨newKey, hjwk, htp⟩, hset⟩
            · simp at he
          · intro k s' e t hok he ht
            split at he
            · rename_i hset
              simp only [hok, hset, Bool.and_self, if_true]
              exact safe_accountPage _ _ _ ht
            · simp at he
          · intro k s' hfail
            split
            · rename_i hdone
              simp only [Bool.and_eq_true] at hdone
              rcases hfail with hfail | hfail
              · simp [hfail] at hdone
              · simp [hdone.2] at hfail
            · exact fine_refuse _ _ _

theorem fine_account
    (id : String)
    (row : AccountRow)
    (q : VerifiedRequest κ) :
    Fine C allow p (accountOf C S id row q) := by
  unfold accountOf
  split
  · exact fine_refuse _ _ _
  · split
    · exact fine_accountPage _ _ _
    · split
      · exact fine_refuse _ _ _
      · split
        · exact fine_accountPage _ _ _
        · split
          · intro s hs
            refine safe_write hs ?_ ?_ ?_
            · intro s' _ e he
              obtain rfl := Option.some.inj he
              exact ⟨rfl, trivial⟩
            · intro k s' e t hok he ht
              simp only [hok, if_true]
              exact safe_accountPage _ _ _ ht
            · intro k s' hfail
              split
              · rename_i hok
                simp [hok] at hfail
              · exact fine_refuse _ _ _
          · exact fine_refuse _ _ _

/-- Every handler is fine. -/
theorem fine_handle (c : Call) :
    Fine C allow p (handle C S c) := by
  cases c with
  | newAccount body =>
      exact fine_verified fine_newAccount
  | keyChange body =>
      refine fine_verified ?_
      intro q
      split
      · exact fine_halt
      · exact fine_keyChange _ _
  | account id body =>
      refine fine_verified ?_
      intro q
      split
      · exact fine_halt
      · exact fine_account id _ _

end Scripts

section Runs

variable {κ : Type} (C : Codec κ) (S : Server)

/-- No step was taken under this process name yet. -/
def unused (p : Pid) (log : List Entry) : Bool :=
  log.all fun x =>
    match x with
    | .handler q _ _ => q != p
    | .operator _ => true

/-- Runs in which each request has a process name of its own and every event is
allowed. -/
def runs (allow : Desk → Event → Prop) : (program C S).Guarded
  | w, .spawn p _ => unused p w.shared.log = true
  | w, .act p k => ∀ l ∈ w.procs p, ∀ e ∈ l.event k w.shared, allow w.shared e
  | _, .crash _ => True
  | _, .env _ => True

instance
    (allow : Desk → Event → Prop)
    [∀ s e, Decidable (allow s e)]
    (w : World Desk Handler)
    (a : Action Choice Call Outside) :
    Decidable (runs C S allow w a) :=
  match a with
  | .spawn p _ => inferInstanceAs (Decidable (unused p w.shared.log = true))
  | .act p k =>
      inferInstanceAs (Decidable
        (∀ l ∈ w.procs p, ∀ e ∈ l.event k w.shared, allow w.shared e))
  | .crash _ => inferInstanceAs (Decidable True)
  | .env _ => inferInstanceAs (Decidable True)

variable {C S} {allow : Desk → Event → Prop}

theorem clear_of_unused
    {p : Pid}
    {s : Desk}
    (h : unused p s.log = true) :
    Clear p s := by
  intro e time he
  have := List.all_eq_true.mp h _ he
  simp at this

/-- The assertions hold in every interleaving. -/
theorem outline_runs :
    Program.Outline (program C S) Fresh (runs C S allow) (orderly C allow).inv
      (fun p s l => (orderly C allow).Safe machine p l s) := by
  refine Discipline.outline_of (orderly_sound C allow) ?_ ?_ ?_
  · rintro s ⟨htables, hlog⟩
    refine ⟨?_, ?_⟩
    · rw [htables, hlog]
      exact Consistent.empty
    · intro p location pr time hanswer
      simp [hlog] at hanswer
  · intro w p c hG _
    exact fine_handle c _ (clear_of_unused hG)
  · intro w p k hG
    exact hG

variable {w w' : World Desk Handler}

theorem consistent_of_reachable
    (hw : ((program C S).system Fresh).Reachable (runs C S allow) w) :
    Consistent w.shared.tables (credentials w.shared.log) :=
  (outline_runs.sound hw).shared.1

/-- A handler's step: one event, promised, with the effect of that event. -/
theorem handler_step
    (hw : ((program C S).system Fresh).Reachable (runs C S allow) w)
    {p : Pid}
    {k : Choice}
    (hG : runs C S allow w (.act p k))
    (hx : (program C S).exec w (.act p k) = some w') :
    ∃ e, allow w.shared e ∧ Promises C p w.shared e ∧
      w'.shared = machine.apply p e w.shared := by
  have hholds := outline_runs.sound hw
  obtain ⟨l, s', l', hl, hact, rfl⟩ := Program.exec_act hx
  obtain ⟨ready, emit, next, rfl, hready, hevent, rfl, rfl⟩ := Discipline.act_cases hact
  have hallow : allow w.shared (emit k w.shared) := hG _ hl _ hevent
  obtain ⟨hmeets, _⟩ :=
    hholds.local_ p _ hl w.shared k ((orderly_sound C allow).refl p _) hholds.shared hready
      hallow
  exact ⟨_, hallow, hmeets, rfl⟩

/-- The operator's commands add no account. -/
theorem accounts_env
    {x : Outside}
    {s s' : Desk}
    (hx : machine.env x s = some s') :
    s'.tables.accounts = s.tables.accounts := by
  simp only [machine] at hx
  split at hx
  · obtain ⟨t, ht, rfl⟩ := Option.map_eq_some_iff.mp hx
    cases x with
    | tick d =>
        obtain rfl := Option.some.inj ht
        rfl
    | insertEab c =>
        simp only [Outside.run] at ht
        split at ht
        · simp at ht
        · obtain rfl := Option.some.inj ht
          rfl
    | deleteEab kid =>
        obtain rfl := Option.some.inj ht
        rfl
  · simp at hx

/-- A new account comes from a transaction that found its credential free or
reusable, and unexpired at the reading of the clock in the step before. -/
theorem new_account
    {p : Pid}
    {s : Desk}
    {e : Event}
    (he : Terms C p s e)
    {a : AccountRow}
    (ha : a ∈ (e.run s.tables).accounts)
    (hnew : ∀ b ∈ s.tables.accounts, b.id ≠ a.id) :
    ∃ b time,
      e = .registered b time ∧
      a = { b with created := unix time } ∧
      (steps p s.log).getLast? = some (.quiet, time) ∧
      ∃ c ∈ s.tables.creds,
        c.kid = a.eabKid ∧ (c.reusable = true ∨ c.accountId = "") ∧
          (c.expires = 0 ∨ (unix time : Int) < c.expires) := by
  have hsame : ∀ l : List AccountRow,
      l.map AccountRow.id = s.tables.accounts.map AccountRow.id → a ∉ l := by
    intro l hl hmem
    have hid : a.id ∈ s.tables.accounts.map AccountRow.id := hl ▸ List.mem_map_of_mem hmem
    obtain ⟨b, hb, hbid⟩ := List.mem_map.mp hid
    exact hnew b hb hbid
  cases e with
  | quiet => exact absurd rfl (hnew a ha)
  | registered b time =>
      obtain ⟨_, _, hread⟩ := he
      simp only [Event.run] at ha
      split at ha
      · rename_i t' hinsert
        obtain ⟨⟨c, hc, hbinds⟩, _, rfl⟩ := insertAccountEAB_eq_ok hinsert
        rcases List.mem_append.mp ha with ha | ha
        · exact absurd rfl (hnew a ha)
        · rw [List.mem_singleton] at ha
          subst ha
          exact ⟨b, time, rfl, rfl, hread, c, hc, binds_iff.mp hbinds⟩
      · exact absurd rfl (hnew a ha)
  | rolled row old jwk tp =>
      simp only [Event.run] at ha
      cases hset : setAccountKey row.id jwk tp s.tables with
      | none =>
          rw [hset] at ha
          exact absurd rfl (hnew a ha)
      | some t' =>
          rw [hset] at ha
          obtain ⟨_, rfl⟩ := setAccountKey_eq_some hset
          refine absurd ha (hsame _ ?_)
          simp only [Option.getD_some]
          rw [updateWhere_map]
          intro b
          rfl
  | statusSet id status =>
      refine absurd ha (hsame _ ?_)
      simp only [Event.run, setAccountStatus]
      rw [updateWhere_map]
      intro b
      rfl
  | answered b => exact absurd rfl (hnew a ha)

end Runs

/-- Every step is allowed. -/
def anyStep : Desk → Event → Prop :=
  fun _ _ => True

instance (s : Desk) (e : Event) : Decidable (anyStep s e) :=
  inferInstanceAs (Decidable True)

/-- In every interleaving: a single-use credential has one account at most, and
its row names it; thumbprints are distinct; a new account is the one a handler
registers in that very step, which found the credential in the table, free or
reusable, and unexpired at the time the handler had read from the clock in its
step before; a handler's step changes
nothing but by its event, and one that answers with a problem has left the tables
as they were in all its steps. -/
theorem registrations
    {κ : Type}
    (C : Codec κ)
    (S : Server)
    {w : World Desk Handler}
    (hw : ((program C S).system Fresh).Reachable (runs C S anyStep) w) :
    (∀ c, .operator (.insertEab c) ∈ w.shared.log → c.reusable = false →
      ∀ a ∈ w.shared.tables.accounts, ∀ b ∈ w.shared.tables.accounts,
        a.eabKid = c.kid → b.eabKid = c.kid → a = b) ∧
    (∀ c ∈ w.shared.tables.creds, c.reusable = false →
      (∀ a ∈ w.shared.tables.accounts, a.eabKid = c.kid → c.accountId = a.id) ∧
      (c.accountId ≠ "" →
        ∃ a ∈ w.shared.tables.accounts, a.id = c.accountId ∧ a.eabKid = c.kid)) ∧
    (w.shared.tables.accounts.map AccountRow.thumbprint).Nodup ∧
    (∀ x w', runs C S anyStep w x → (program C S).exec w x = some w' →
      ∀ a ∈ w'.shared.tables.accounts, (∀ b ∈ w.shared.tables.accounts, b.id ≠ a.id) →
        ∃ p k b time,
          x = .act p k ∧
          w'.shared.log = w.shared.log ++ [.handler p (.registered b time) w.shared.now] ∧
          a = { b with created := unix time } ∧
          (steps p w.shared.log).getLast? = some (.quiet, time) ∧
          ∃ c ∈ w.shared.tables.creds,
            c.kid = a.eabKid ∧ (c.reusable = true ∨ c.accountId = "") ∧
              (c.expires = 0 ∨ (unix time : Int) < c.expires)) ∧
    (∀ p k w', runs C S anyStep w (.act p k) → (program C S).exec w (.act p k) = some w' →
      ∃ e, w'.shared.log = w.shared.log ++ [.handler p e w.shared.now] ∧
        w'.shared.tables = e.run w.shared.tables) ∧
    (∀ p location pr time,
      .handler p (.answered (.problem location pr)) time ∈ w.shared.log →
        ∀ e time', .handler p e time' ∈ w.shared.log → ∀ t, e.run t = t) := by
  have hconsistent := consistent_of_reachable hw
  refine ⟨?_, ?_, hconsistent.thumbprints, ?_, ?_, ?_⟩
  · intro c hc
    exact hconsistent.single c (mem_credentials.mpr hc)
  · intro c hc hsingle
    exact ⟨hconsistent.bound c hc hsingle, hconsistent.binding c hc hsingle⟩
  · intro x w' hG hx a ha hnew
    cases x with
    | spawn p c =>
        obtain ⟨_, rfl⟩ := Program.exec_spawn hx
        exact absurd rfl (hnew a ha)
    | act p k =>
        obtain ⟨e, _, hpromises, heq⟩ := handler_step hw hG hx
        rw [heq] at ha
        obtain ⟨b, time, rfl, hrow⟩ := new_account hpromises.terms ha hnew
        exact ⟨p, k, b, time, rfl, by rw [heq]; rfl, hrow⟩
    | crash p =>
        obtain ⟨l, _, rfl⟩ := Program.exec_crash hx
        exact absurd rfl (hnew a ha)
    | env x =>
        obtain ⟨s', hs', rfl⟩ := Program.exec_env hx
        rw [accounts_env hs'] at ha
        exact absurd rfl (hnew a ha)
  · intro p k w' hG hx
    obtain ⟨e, _, _, heq⟩ := handler_step hw hG hx
    rw [heq]
    exact ⟨e, rfl, rfl⟩
  · intro p location pr time hanswer e time' he t
    have hclean := (outline_runs.sound hw).shared.2
    exact Event.run_of_quiet (hclean p location pr time hanswer e time' he) t

/-- Keys are their own texts and thumbprints.  `register` is signed by the key
`old`, `change1` and `change2` are signed for account `a` over inner requests by
the keys `new1` and `new2`. -/
def sampleCodec : Codec String where
  parseSigned body :=
    if body = "register" then .ok [⟨"n", some "/acme/new-account", some "old", ""⟩]
    else if body = "change1" then .ok [⟨"n1", some "/acme/key-change", none, "/acme/acct/a"⟩]
    else if body = "change2" then .ok [⟨"n2", some "/acme/key-change", none, "/acme/acct/a"⟩]
    else .ok [⟨"", some "/acme/key-change", some body, ""⟩]
  verify body key :=
    if body = "register" then if key = "old" then some body else none
    else if body = "change1" then if key = "old" then some "new1" else none
    else if body = "change2" then if key = "old" then some "new2" else none
    else if key = body then some body
    else none
  decodeKey text := some text
  encodeKey key := some key
  thumbprint key := some key
  parseEab _ := .ok [⟨"", some "/acme/new-account", none, "c"⟩]
  verifyEab _ _ := some "old"
  newAccount _ := some ⟨false, "eab"⟩
  keyChange _ := some ⟨"/acme/acct/a", "old"⟩
  accountStatus _ := none

def sampleServer : Server :=
  ⟨"", id⟩

/-- A single-use credential that expires at second 10. -/
def sampleCred : EabRow :=
  ⟨"c", "hmac", "", 0, "", false, 10⟩

/-- The registration of the sample up to its transaction. -/
def sampleRegistration : List (Action Choice Call Outside) :=
  [.env (.insertEab sampleCred), .env (.tick 9000000000),
    .spawn 0 (.newAccount (some "register")),
    .act 0 ⟨true, some true, ""⟩, .act 0 ⟨true, none, ""⟩, .act 0 ⟨true, none, ""⟩,
    .act 0 ⟨true, none, ""⟩, .act 0 ⟨true, none, "a"⟩]

def sampleWorld : World Desk Handler :=
  World.idle ⟨⟨[], []⟩, 0, []⟩

theorem sampleWorld_init :
    ((program sampleCodec sampleServer).system Fresh).init sampleWorld :=
  ⟨⟨rfl, rfl⟩, World.idle_quiet _⟩

/-- The sample registers, and its credential names the account. -/
theorem registrations_sample :
    ∃ w,
      ((program sampleCodec sampleServer).system Fresh).Reachable
        (runs sampleCodec sampleServer anyStep) w ∧
      w.shared.tables.accounts = [⟨"a", "old", "old", "c", "valid", 9⟩] ∧
      ∀ c ∈ w.shared.tables.creds, c.reusable = false →
        ∀ a ∈ w.shared.tables.accounts, a.eabKid = c.kid → c.accountId = a.id := by
  have hfollow :
      (((program sampleCodec sampleServer).system Fresh).follow
        (runs sampleCodec sampleServer anyStep) sampleWorld
        (sampleRegistration ++ [.act 0 ⟨true, none, ""⟩])).any
          (fun w => decide
            (w.shared.tables.accounts = [⟨"a", "old", "old", "c", "valid", 9⟩])) = true := by
    decide
  obtain ⟨w, hrun, hcheck⟩ := Automaton.Run.exists_of_follow hfollow
  have hw := Automaton.Reachable.of_run sampleWorld_init hrun
  obtain ⟨_, hbound, _⟩ := registrations sampleCodec sampleServer hw
  exact ⟨w, hw, of_decide_eq_true hcheck, fun c hc hsingle => (hbound c hc hsingle).1⟩

/-- The clock is read before the transaction begins, so a credential that expires
in between still admits its account; and an answer that cannot be given a nonce is
an error although the account is there. -/
theorem registered_late :
    ∃ w,
      ((program sampleCodec sampleServer).system Fresh).Reachable
        (runs sampleCodec sampleServer anyStep) w ∧
      ∃ p a time late later,
        .handler p (.registered a time) late ∈ w.shared.log ∧
        a.eabKid = sampleCred.kid ∧
        sampleCred.expires ≤ unix late ∧
        .handler p (.answered .noNonce) later ∈ w.shared.log ∧
        w.shared.tables =
          ⟨[{ a with created := 9 }], [{ sampleCred with accountId := a.id }]⟩ := by
  have hfollow :
      (((program sampleCodec sampleServer).system Fresh).follow
        (runs sampleCodec sampleServer anyStep) sampleWorld
        (sampleRegistration ++
          [.env (.tick 2000000000), .act 0 ⟨true, none, ""⟩, .act 0 ⟨false, none, ""⟩])).any
          (fun w => decide
            (.handler 0 (.registered ⟨"a", "old", "old", "c", "valid", 0⟩ 9000000000)
                11000000000 ∈ w.shared.log ∧
              .handler 0 (.answered .noNonce) 11000000000 ∈ w.shared.log ∧
              w.shared.tables =
                ⟨[⟨"a", "old", "old", "c", "valid", 9⟩],
                  [{ sampleCred with accountId := "a" }]⟩)) = true := by
    decide
  obtain ⟨w, hrun, hcheck⟩ := Automaton.Run.exists_of_follow hfollow
  obtain ⟨hregistered, hanswered, htables⟩ := of_decide_eq_true hcheck
  exact ⟨w, Automaton.Reachable.of_run sampleWorld_init hrun, 0, _, _, _, _, hregistered, rfl,
    by decide, hanswered, htables⟩

end Registry
end Acme
end Yca
