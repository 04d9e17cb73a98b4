import Yca.Ca.Accounts
import Yca.Ca.Endings

/-!
# Calls side by side

The accounts of `Ca.Accounts` for calls that run side by side.  Whatever the
others do, time passes, files stay, locked sections stay, and nothing changes in
the database while a call holds the write lock.  In every interleaving each
event meets its contract and is accounted for.
-/

namespace Yca
namespace Ca

open Yca.Core

/-- What no process takes away. -/
structure Grows (s t : Store) : Prop where
  root : t.db.root = s.db.root
  purposes : ∀ ca ∈ s.db.purposes, ca ∈ t.db.purposes
  pem : ∀ slug, (s.pem slug).isSome = true → (t.pem slug).isSome = true
  crl : ∀ slug, (s.crl slug).isSome = true → (t.crl slug).isSome = true

/-- What the others may do to the store under a call. -/
structure Shared (r : Rules) (p : Pid) (s t : Store) : Prop where
  others : Interference r p s t
  grows : Grows s t

/-- The calls of the runs under consideration. -/
def Rules.conduct (r : Rules) : Conduct Store Event Request where
  inv _ := True
  Rely := Shared r
  allow _ := r.allow
  Meets req p s e := Meets r p s e ∧ Account (Shared r) p (fun _ => True) req s e

/-- The interleavings of the admitted calls whose events the rules allow. -/
abbrev Rules.calls (r : Rules) (admits : Request → Prop) : ycaCalls.Guarded :=
  machine.callPolicy start (fun _ => admits) fun _ => r.allow

/-- Runs of all commands that only an extra condition on events restricts. -/
def Rules.given (only : Store → Event → Prop) : Rules where
  issuance := True
  ceremonies := True
  caRevocation := True
  keep _ _ := False
  keep_mono _ _ _ _ h := h
  only := only

instance (only : Store → Event → Prop) : Decidable (Rules.given only).ceremonies :=
  inferInstanceAs (Decidable True)

instance (only : Store → Event → Prop) (db : Db) (slug : String) :
    Decidable ((Rules.given only).keep db slug) :=
  inferInstanceAs (Decidable False)

instance
    (only : Store → Event → Prop)
    [∀ s e, Decidable (only s e)]
    (s : Store)
    (e : Event) :
    Decidable ((Rules.given only).only s e) :=
  inferInstanceAs (Decidable (only s e))

theorem Rules.given_admits (only : Store → Event → Prop) (req : Request) :
    (Rules.given only).Admits req := by
  cases req <;> trivial

theorem Rules.given_only
    {only : Store → Event → Prop}
    {p : Pid}
    {s : Store}
    {e : Event}
    (h : (Rules.given only).allow p s e) :
    only s e := by
  cases e with
  | publish slug issuer file => exact h.2
  | _ => exact h

section Growth

theorem Grows.refl (s : Store) :
    Grows s s :=
  ⟨rfl, fun _ h => h, fun _ h => h, fun _ h => h⟩

theorem Grows.trans
    {s t u : Store}
    (h₁ : Grows s t)
    (h₂ : Grows t u) :
    Grows s u where
  root := h₂.root.trans h₁.root
  purposes ca h := h₂.purposes ca (h₁.purposes ca h)
  pem slug h := h₂.pem slug (h₁.pem slug h)
  crl slug h := h₂.crl slug (h₁.crl slug h)

/-- The section a transaction locks. -/
def Tx.locks : Tx → Option SigningCa
  | .generation _ _ _ lock => lock
  | _ => none

/-- Transactions change neither the root's section nor a locked one; what they
lock is new. -/
theorem run_config
    {tx : Tx}
    {db db' : Db}
    (h : tx.run db = some db') :
    db'.loadConfig = ⟨db.root, db.purposes ++ tx.locks.toList⟩ ∧
      ∀ ca ∈ tx.locks, ∀ held ∈ db.purposes, held.purpose ≠ ca.purpose := by
  have hsame : ∀ other : Db, other.root = db.root → other.purposes = db.purposes →
      other.loadConfig = ⟨db.root, db.purposes ++ []⟩ := by
    intro other hroot hpurposes
    simp [Db.loadConfig, hroot, hpurposes]
  cases tx with
  | generation next cert key lock =>
      obtain ⟨hfree, _, rfl⟩ := run_generation h
      exact ⟨rfl, hfree⟩
  | enroll id created =>
      obtain ⟨_, rfl⟩ := run_enroll h
      exact ⟨hsame _ rfl rfl, by simp [Tx.locks]⟩
  | _ =>
      rw [← Option.some.inj h]
      exact ⟨hsame _ rfl rfl, by simp [Tx.locks]⟩

/-- A file that is there stays there when it is written again. -/
theorem isSome_update
    {α : Type}
    {f : String → Option α}
    {slug other : String}
    {a : α}
    (h : (f other).isSome = true) :
    (Function.update f slug (some a) other).isSome = true := by
  by_cases heq : other = slug
  · rw [heq, Function.update_self]
    rfl
  · rw [Function.update_of_ne heq]
    exact h

theorem grows_apply
    (p : Pid)
    (s : Store)
    (e : Event) :
    Grows s (s.apply p e) := by
  cases e with
  | key use =>
      obtain ⟨hdb, _, hpem, hcrl⟩ := apply_key_db p use s
      refine ⟨by rw [hdb], ?_, ?_, ?_⟩
      · rw [hdb]
        exact fun _ h => h
      · rw [hpem]
        exact fun _ h => h
      · rw [hcrl]
        exact fun _ h => h
  | publish slug issuer file =>
      cases file with
      | pem cert => exact ⟨rfl, fun _ h => h, fun _ h => isSome_update h, fun _ h => h⟩
      | crt cert => exact ⟨rfl, fun _ h => h, fun _ h => h, fun _ h => h⟩
      | crl crl => exact ⟨rfl, fun _ h => h, fun _ h => h, fun _ h => isSome_update h⟩
  | rewrite w => exact ⟨rfl, fun _ h => h, fun _ h => h, fun _ h => isSome_update h⟩
  | commit tx =>
      cases hrun : tx.run s.db with
      | none =>
          simp only [Store.apply, Store.effect, hrun]
          exact ⟨rfl, fun _ h => h, fun _ h => h, fun _ h => h⟩
      | some db =>
          rw [apply_commit p hrun]
          obtain ⟨hconfig, _⟩ := run_config hrun
          refine ⟨congrArg Config.root hconfig, ?_, fun _ h => h, fun _ h => h⟩
          intro ca hca
          show ca ∈ db.loadConfig.cas
          rw [hconfig]
          exact List.mem_append_left _ hca
  | _ => exact ⟨rfl, fun _ h => h, fun _ h => h, fun _ h => h⟩

end Growth

section Soundness

variable {r : Rules} {p : Pid}

/-- The store keeps every conduct of this kind. -/
theorem conduct_sound (r : Rules) :
    r.conduct.Sound machine where
  refl p s := ⟨Interference.refl s, Grows.refl s⟩
  trans p _ _ _ h₁ h₂ := ⟨h₁.others.trans h₂.others, h₁.grows.trans h₂.grows⟩
  event req p s e _ hallow hmeets :=
    ⟨trivial, fun _ hqp => ⟨interference_of_event hqp hallow hmeets.1, grows_apply p s e⟩⟩
  die p s _ := by
    refine ⟨trivial, ?_⟩
    intro q hqp
    refine ⟨((discipline_sound r).die p s trivial).2 q hqp, ?_⟩
    show Grows s (s.die p)
    unfold Store.die
    split
    · exact ⟨rfl, fun _ h => h, fun _ h => h, fun _ h => h⟩
    · exact Grows.refl s
  env x s s' _ hx := by
    refine ⟨trivial, ?_⟩
    intro q
    refine ⟨((discipline_sound r).env x s s' trivial hx).2 q, ?_⟩
    cases x with
    | tick seconds =>
        rw [← Option.some.inj hx]
        exact ⟨rfl, fun _ h => h, fun _ h => h, fun _ h => h⟩
    | token label objects =>
        rw [← Option.some.inj hx]
        exact ⟨rfl, fun _ h => h, fun _ h => h, fun _ h => h⟩

/-- Every command behaves. -/
theorem conduct_start
    {req : Request}
    (hreq : r.Admits req)
    (p : Pid)
    (s : Store) :
    (r.conduct.of req).Safe machine p (start req) s := by
  refine Discipline.Safe.and (D := accounting (fun _ => True) (Shared r) r.allow req)
    (discipline r) (fun _ _ => trivial) ?_ (fun _ _ _ h => h)
    (accounts_start (fun _ => True) (Shared r) r.allow req p s) (safe_start hreq p s)
  intro q t u h
  exact h.others

variable {init : Store → Prop} {admits : Request → Prop}

/-- What a call does in a step meets its contract and is accounted for. -/
theorem call_emitted
    (hadmits : ∀ req, admits req → r.Admits req)
    {w w' : World Store (Request × Command)}
    (hw : (ycaCalls.system init).Reachable (r.calls admits) w)
    {req : Request}
    {e : Event}
    (he : machine.Emits start (r.calls admits) w p req e w') :
    r.allow p w.shared e ∧
      Meets r p w.shared e ∧
      Account (Shared r) p (fun _ => True) req w.shared e :=
  Conduct.emitted (C := r.conduct) (conduct_sound r) (fun _ _ => trivial)
    (fun _ p s h _ => conduct_start (hadmits _ h) p s) hw he

/-- The moves of calls, event by event. -/
theorem keeps_of_calls
    {P : Store → Prop}
    (hevent : ∀ s p req e, P s → r.allow p s e → Meets r p s e →
      Account (Shared r) p (fun _ => True) req s e → P (s.apply p e))
    (hframe : ∀ s s' : Store, P s → s'.db = s.db → s'.pem = s.pem → s'.crl = s.crl →
      s'.log = s.log → s.now ≤ s'.now → P s')
    {s s' : Store}
    (hs : P s)
    (hmove : r.conduct.Moves machine s s') :
    P s' := by
  cases hmove with
  | spawn => exact hs
  | event req p e hallow hmeets => exact hevent s p req e hs hallow hmeets.1 hmeets.2
  | die p =>
      show P (s.die p)
      unfold Store.die
      split
      · exact hframe s _ hs rfl rfl rfl rfl (Nat.le_refl _)
      · exact hs
  | env o ho =>
      cases o with
      | tick seconds =>
          rw [← Option.some.inj ho]
          exact hframe s _ hs rfl rfl rfl rfl (Nat.le_add_right _ _)
      | token label objects =>
          rw [← Option.some.inj ho]
          exact hframe s _ hs rfl rfl rfl rfl (Nat.le_refl _)

/-- What every move keeps survives a run of calls. -/
theorem calls_stable
    (hadmits : ∀ req, admits req → r.Admits req)
    {P : Store → Prop}
    (hmoves : ∀ s s', P s → r.conduct.Moves machine s s' → P s')
    {w w' : World Store (Request × Command)}
    {as : List (Action Choice Request Outside)}
    (hw : (ycaCalls.system init).Reachable (r.calls admits) w)
    (hrun : (ycaCalls.system init).Run (r.calls admits) w as w')
    (h : P w.shared) :
    P w'.shared :=
  Conduct.stable (C := r.conduct) (conduct_sound r) (fun _ _ => trivial)
    (fun _ p s h _ => conduct_start (hadmits _ h) p s)
    (fun s s' _ _ hs hmove => hmoves s s' hs hmove) hw hrun h

/-- What holds at the start and is kept by every move of a call holds in every
reachable state. -/
theorem calls_keep
    (hadmits : ∀ req, admits req → r.Admits req)
    {P : Store → Prop}
    (hinit : ∀ s, init s → P s)
    (hmoves : ∀ s s', P s → r.conduct.Moves machine s s' → P s')
    {w : World Store (Request × Command)}
    (hw : (ycaCalls.system init).Reachable (r.calls admits) w) :
    P w.shared := by
  rcases hw with ⟨w₀, as, h₀, hrun⟩
  exact calls_stable hadmits hmoves (Automaton.Reachable.of_init h₀) hrun (hinit _ h₀.1)

/-- Time passes between two steps of a call. -/
theorem Calm.now
    {s t : Store}
    (h : Calm (Shared r) p s t) :
    s.now ≤ t.now := by
  refine Machine.Since.induct (Q := fun u => s.now ≤ u.now) ?_ ?_ h (Nat.le_refl _)
  · intro u v hu hv
    exact Nat.le_trans hu hv.others.now
  · intro u e hu _
    exact Nat.le_trans hu (Nat.le_of_eq (apply_now p e u).symm)

/-- Under the write lock the database is as it was. -/
theorem Calm.locked
    {s t : Store}
    (h : Calm (Shared r) p s t)
    (hs : s.lock = some p) :
    t.lock = some p ∧ t.db = s.db := by
  refine Machine.Since.induct (Q := fun u => u.lock = some p ∧ u.db = s.db) ?_ ?_ h ⟨hs, rfl⟩
  · rintro u v ⟨hlock, hdb⟩ hv
    obtain ⟨hlock', hdb'⟩ := hv.others.locked hlock
    exact ⟨hlock', hdb'.trans hdb⟩
  · rintro u e ⟨hlock, hdb⟩ he
    cases e with
    | quiet => exact ⟨hlock, hdb⟩
    | begin => exact ⟨rfl, hdb⟩
    | key use =>
        obtain ⟨hdb', hlock', _⟩ := apply_key_db p use u
        exact ⟨hlock'.trans hlock, hdb'.trans hdb⟩
    | publish slug issuer file => cases file <;> exact ⟨hlock, hdb⟩
    | rewrite w => exact ⟨hlock, hdb⟩
    | _ => simp [Event.calm] at he

/-- What no process takes away is still there. -/
theorem Mild.grows
    {s t : Store}
    (h : Mild (Shared r) p s t) :
    Grows s t := by
  refine Machine.Since.induct (Q := Grows s) ?_ ?_ h (Grows.refl s)
  · intro u v hu hv
    exact hu.trans hv.grows
  · intro u e hu _
    exact hu.trans (grows_apply p u e)

end Soundness

end Ca
end Yca
