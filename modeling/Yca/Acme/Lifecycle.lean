import Yca.Core.Automaton
import Mathlib.Data.List.Nodup
import Mathlib.Logic.Function.Basic

/-!
# The life of an order

What a certificate frontend is for, without tables, statements or handlers.  An
order is opened for names; its authorizations are attempted, each once, and
proved by evidence; once every name is proved the order can be claimed, the CA
is asked, and the order ends with a certificate or without one.  What counts as
evidence for a name is a parameter.

Nothing here is about a particular server: identifiers, names, evidence and
certificates are of any types.
-/

namespace Yca
namespace Acme

open Yca.Core

universe u

/-- Where an order stands. -/
inductive Phase (γ : Type u)
  | pending
  | ready
  | processing
  | valid (cert : γ)
  | invalid

/-- The order has been given to the CA. -/
def Phase.Given {γ : Type u} : Phase γ → Prop
  | processing => True
  | valid _ => True
  | _ => False

/-- The order has ended. -/
def Phase.Final {γ : Type u} : Phase γ → Prop
  | valid _ => True
  | invalid => True
  | _ => False

/-- An order. -/
structure Entry (α ν γ : Type u) where
  account : α
  names : List ν
  phase : Phase γ

/-- The orders (`ι`), and what happened to them and to their authorizations
(`β`). -/
structure Ledger (ι β α ν ε γ : Type u) where
  orders : ι → Option (Entry α ν γ)
  opened : List ι
  attempts : List (β × ι)
  proofs : List (β × ε)
  claimed : List ι
  asked : List ι

/-- What can happen. -/
inductive Deed (ι β α ν ε γ : Type u)
  | opens (o : ι) (account : α) (names : List ν)
  | attempts (b : β) (o : ι)
  | proves (b : β) (e : ε)
  | readies (o : ι)
  | claims (o : ι)
  | asks (o : ι)
  | issues (o : ι) (cert : γ)
  | refuses (o : ι)
  | removes (o : ι)

variable {ι β α ν ε γ : Type u}

namespace Ledger

/-- Nothing has happened. -/
def empty : Ledger ι β α ν ε γ :=
  ⟨fun _ => none, [], [], [], [], []⟩

/-- The order is in one of these phases. -/
def Stands (L : Ledger ι β α ν ε γ) (o : ι) (phases : Phase γ → Prop) : Prop :=
  ∃ x, L.orders o = some x ∧ phases x.phase

/-- Every name of the order is proved by evidence for one of its
authorizations. -/
def Proved (L : Ledger ι β α ν ε γ) (shows : ε → α → ν → Prop) (o : ι) (x : Entry α ν γ) : Prop :=
  ∀ name ∈ x.names, ∃ b e,
    (b, o) ∈ L.attempts ∧ (b, e) ∈ L.proofs ∧ shows e x.account name

/-- When something can happen. -/
def Allows (shows : ε → α → ν → Prop) (L : Ledger ι β α ν ε γ) : Deed ι β α ν ε γ → Prop
  | .opens o _ _ => o ∉ L.opened
  | .attempts b _ => ∀ o, (b, o) ∉ L.attempts
  | .proves b _ => ∃ o, (b, o) ∈ L.attempts
  | .readies o => L.Stands o fun phase => phase = .pending ∨ phase = .ready
  | .claims o => ∃ x, L.orders o = some x ∧ x.phase = .ready ∧ L.Proved shows o x
  | .asks o => o ∈ L.claimed ∧ o ∉ L.asked
  | .issues o _ => o ∈ L.asked ∧ L.Stands o fun phase => phase = .processing
  | .refuses o => L.Stands o fun phase => phase = .pending ∨ phase = .processing
  | .removes o => (L.orders o).isSome = true

variable [DecidableEq ι]

/-- The orders with one of them in another phase. -/
def move (L : Ledger ι β α ν ε γ) (o : ι) (phase : Phase γ) : ι → Option (Entry α ν γ) :=
  Function.update L.orders o ((L.orders o).map fun x => { x with phase := phase })

/-- What it changes. -/
def apply (L : Ledger ι β α ν ε γ) : Deed ι β α ν ε γ → Ledger ι β α ν ε γ
  | .opens o account names =>
      { L with
        orders := Function.update L.orders o (some ⟨account, names, .pending⟩)
        opened := L.opened ++ [o] }
  | .attempts b o => { L with attempts := L.attempts ++ [(b, o)] }
  | .proves b e => { L with proofs := L.proofs ++ [(b, e)] }
  | .readies o => { L with orders := L.move o .ready }
  | .claims o => { L with orders := L.move o .processing, claimed := L.claimed ++ [o] }
  | .asks o => { L with asked := L.asked ++ [o] }
  | .issues o cert => { L with orders := L.move o (.valid cert) }
  | .refuses o => { L with orders := L.move o .invalid }
  | .removes o => { L with orders := Function.update L.orders o none }

/-- An order after one of them has moved. -/
theorem move_cases
    {L : Ledger ι β α ν ε γ}
    {o k : ι}
    {phase : Phase γ}
    {x : Entry α ν γ}
    (h : L.move o phase k = some x) :
    (k = o ∧ ∃ x₀, L.orders o = some x₀ ∧ x = { x₀ with phase := phase }) ∨
      k ≠ o ∧ L.orders k = some x := by
  by_cases hk : k = o
  · subst hk
    rw [move, Function.update_self, Option.map_eq_some_iff] at h
    obtain ⟨x₀, hx₀, rfl⟩ := h
    exact Or.inl ⟨rfl, x₀, hx₀, rfl⟩
  · rw [move, Function.update_of_ne hk] at h
    exact Or.inr ⟨hk, h⟩

end Ledger

section Lifecycle

variable [DecidableEq ι] (shows : ε → α → ν → Prop)

open Classical in
/-- The lives orders can have. -/
noncomputable def lifecycle : Automaton (Ledger ι β α ν ε γ) (Deed ι β α ν ε γ) where
  init L := L = Ledger.empty
  exec L d := if L.Allows shows d then some (L.apply d) else none

variable {shows} {L L' : Ledger ι β α ν ε γ} {d : Deed ι β α ν ε γ}

theorem lifecycle_exec
    (h : L.Allows shows d) :
    (lifecycle shows).exec L d = some (L.apply d) :=
  if_pos h

theorem exec_lifecycle
    (h : (lifecycle shows).exec L d = some L') :
    L.Allows shows d ∧ L' = L.apply d := by
  simp only [lifecycle] at h
  split at h
  · rename_i hallows
    exact ⟨hallows, (Option.some.inj h).symm⟩
  · simp at h

/-- One deed is a run. -/
theorem run_deed
    (h : L.Allows shows d) :
    (lifecycle shows).Run Guard.free L [d] (L.apply d) :=
  Automaton.Run.cons trivial (lifecycle_exec h) (Automaton.Run.nil _)

/-- Several orders are removed. -/
theorem run_remove
    (os : List ι)
    (hnodup : os.Nodup)
    (hthere : ∀ o ∈ os, (L.orders o).isSome = true) :
    ∃ ds, (lifecycle shows).Run Guard.free L ds
      { L with orders := fun o => if o ∈ os then none else L.orders o } := by
  induction os generalizing L with
  | nil => exact ⟨[], by simpa using Automaton.Run.nil L⟩
  | cons o os ih =>
      obtain ⟨hnew, hrest⟩ := List.nodup_cons.mp hnodup
      have hallows : L.Allows shows (.removes o) := hthere o List.mem_cons_self
      obtain ⟨ds, hds⟩ := ih (L := L.apply (.removes o)) hrest fun k hk => by
        have hne : k ≠ o := by
          rintro rfl
          exact hnew hk
        show (Function.update L.orders o none k).isSome = true
        rw [Function.update_of_ne hne]
        exact hthere k (List.mem_cons_of_mem _ hk)
      refine ⟨.removes o :: ds, ?_⟩
      have hend : ({ L.apply (.removes o) with
            orders := fun k => if k ∈ os then none else (L.apply (.removes o)).orders k } :
            Ledger ι β α ν ε γ) =
          { L with orders := fun k => if k ∈ o :: os then none else L.orders k } := by
        simp only [Ledger.apply, Ledger.mk.injEq, and_true]
        funext k
        by_cases hk : k = o
        · subst hk
          simp
        · simp [hk]
      rw [← hend]
      exact Automaton.Run.cons trivial (lifecycle_exec hallows) hds

end Lifecycle

section Lawful

variable (shows : ε → α → ν → Prop)

/-- What holds of every order. -/
structure Lawful (L : Ledger ι β α ν ε γ) : Prop where
  /-- An authorization is attempted once. -/
  attempts : (L.attempts.map Prod.fst).Nodup
  /-- Orders are opened once. -/
  opened : L.opened.Nodup
  known : ∀ o, (L.orders o).isSome = true → o ∈ L.opened
  /-- The CA is asked once for an order, and only for a claimed one. -/
  asked : L.asked.Nodup
  claimed : ∀ o ∈ L.asked, o ∈ L.claimed
  once : L.claimed.Nodup
  founded : ∀ o ∈ L.claimed, o ∈ L.opened
  /-- An order is given to the CA only when all its names are proved. -/
  given : ∀ o x, L.orders o = some x → x.phase.Given → o ∈ L.claimed ∧ L.Proved shows o x
  /-- A claimed order is not offered again. -/
  spent : ∀ o x, L.orders o = some x → o ∈ L.claimed → x.phase.Given ∨ x.phase = .invalid
  /-- A certificate is the CA's answer. -/
  issued : ∀ o x cert, L.orders o = some x → x.phase = .valid cert → o ∈ L.asked

variable {shows} {L : Ledger ι β α ν ε γ}

theorem Ledger.Proved.mono
    {L' : Ledger ι β α ν ε γ}
    {o : ι}
    {x x' : Entry α ν γ}
    (h : L.Proved shows o x)
    (hattempts : ∀ y ∈ L.attempts, y ∈ L'.attempts)
    (hproofs : ∀ y ∈ L.proofs, y ∈ L'.proofs)
    (haccount : x'.account = x.account)
    (hnames : x'.names = x.names) :
    L'.Proved shows o x' := by
  intro name hname
  rw [hnames] at hname
  obtain ⟨b, e, hb, he, hshows⟩ := h name hname
  rw [haccount]
  exact ⟨b, e, hattempts _ hb, hproofs _ he, hshows⟩

variable [DecidableEq ι]

/-- Moving an order between phases that say nothing of the CA. -/
theorem Lawful.moved
    (h : Lawful shows L)
    {o : ι}
    {phase : Phase γ}
    (hgiven : phase.Given → ∀ x, L.orders o = some x → x.phase.Given)
    (hspent : o ∈ L.claimed → phase.Given ∨ phase = .invalid)
    (hissued : ∀ cert, phase = .valid cert → o ∈ L.asked) :
    Lawful shows { L with orders := L.move o phase } where
  attempts := h.attempts
  opened := h.opened
  known k hk := by
    obtain ⟨x, hx⟩ := Option.isSome_iff_exists.mp hk
    rcases Ledger.move_cases hx with ⟨rfl, x₀, hx₀, _⟩ | ⟨_, hx⟩
    · exact h.known k (by rw [hx₀]; rfl)
    · exact h.known k (by rw [hx]; rfl)
  asked := h.asked
  claimed := h.claimed
  once := h.once
  founded := h.founded
  given k x hx hphase := by
    rcases Ledger.move_cases hx with ⟨rfl, x₀, hx₀, rfl⟩ | ⟨_, hx⟩
    · obtain ⟨hclaimed, hproved⟩ := h.given k x₀ hx₀ (hgiven hphase x₀ hx₀)
      exact ⟨hclaimed, hproved.mono (fun _ hy => hy) (fun _ hy => hy) rfl rfl⟩
    · exact h.given k x hx hphase
  spent k x hx hk := by
    rcases Ledger.move_cases hx with ⟨rfl, x₀, _, rfl⟩ | ⟨_, hx⟩
    · exact hspent hk
    · exact h.spent k x hx hk
  issued k x cert hx hphase := by
    rcases Ledger.move_cases hx with ⟨rfl, x₀, _, rfl⟩ | ⟨_, hx⟩
    · exact hissued cert hphase
    · exact h.issued k x cert hx hphase

omit [DecidableEq ι] in
theorem Lawful.empty :
    Lawful shows (Ledger.empty : Ledger ι β α ν ε γ) := by
  constructor <;> simp [Ledger.empty]

theorem Lawful.opens
    (h : Lawful shows L)
    {o : ι}
    (hnew : o ∉ L.opened)
    (account : α)
    (names : List ν) :
    Lawful shows (L.apply (.opens o account names)) := by
  have hcases : ∀ k x, (L.apply (.opens o account names)).orders k = some x →
      (k = o ∧ x = ⟨account, names, .pending⟩) ∨ L.orders k = some x := by
    intro k x hx
    by_cases hk : k = o
    · subst hk
      simp only [Ledger.apply, Function.update_self, Option.some.injEq] at hx
      exact Or.inl ⟨rfl, hx.symm⟩
    · simp only [Ledger.apply, Function.update_of_ne hk] at hx
      exact Or.inr hx
  constructor
  · exact h.attempts
  · exact List.nodup_append.mpr
      ⟨h.opened, List.nodup_singleton o, fun k hk l hl => by
        rintro rfl
        exact hnew (List.mem_singleton.mp hl ▸ hk)⟩
  · intro k hk
    obtain ⟨x, hx⟩ := Option.isSome_iff_exists.mp hk
    rcases hcases k x hx with ⟨rfl, _⟩ | hx
    · exact List.mem_append_right _ (List.mem_singleton_self k)
    · exact List.mem_append_left _ (h.known k (by rw [hx]; rfl))
  · exact h.asked
  · exact h.claimed
  · exact h.once
  · intro k hk
    exact List.mem_append_left _ (h.founded k hk)
  · intro k x hx hgiven
    rcases hcases k x hx with ⟨_, rfl⟩ | hx
    · exact hgiven.elim
    · exact h.given k x hx hgiven
  · intro k x hx hk
    rcases hcases k x hx with ⟨rfl, _⟩ | hx
    · exact absurd (h.founded k hk) hnew
    · exact h.spent k x hx hk
  · intro k x cert hx hphase
    rcases hcases k x hx with ⟨_, rfl⟩ | hx
    · simp at hphase
    · exact h.issued k x cert hx hphase

theorem Lawful.claims
    (h : Lawful shows L)
    {o : ι}
    {x : Entry α ν γ}
    (hx : L.orders o = some x)
    (hready : x.phase = .ready)
    (hproved : L.Proved shows o x) :
    Lawful shows (L.apply (.claims o)) := by
  have hopen : o ∉ L.claimed := by
    intro hclaimed
    rcases h.spent o x hx hclaimed with hgiven | hinvalid
    · rw [hready] at hgiven
      exact hgiven
    · simp [hready] at hinvalid
  constructor
  · exact h.attempts
  · exact h.opened
  · intro k hk
    obtain ⟨y, hy⟩ := Option.isSome_iff_exists.mp hk
    rcases Ledger.move_cases hy with ⟨rfl, _⟩ | ⟨_, hy⟩
    · exact h.known k (by rw [hx]; rfl)
    · exact h.known k (by rw [hy]; rfl)
  · exact h.asked
  · intro k hk
    exact List.mem_append_left _ (h.claimed k hk)
  · exact List.nodup_append.mpr
      ⟨h.once, List.nodup_singleton o, fun k hk l hl => by
        rintro rfl
        exact hopen (List.mem_singleton.mp hl ▸ hk)⟩
  · intro k hk
    rcases List.mem_append.mp hk with hk | hk
    · exact h.founded k hk
    · rw [List.mem_singleton.mp hk]
      exact h.known o (by rw [hx]; rfl)
  · intro k y hy hgiven
    rcases Ledger.move_cases hy with ⟨rfl, x₀, hx₀, rfl⟩ | ⟨_, hy⟩
    · obtain rfl : x = x₀ := Option.some.inj (hx.symm.trans hx₀)
      exact ⟨List.mem_append_right _ (List.mem_singleton_self k),
        hproved.mono (fun _ hy => hy) (fun _ hy => hy) rfl rfl⟩
    · obtain ⟨hclaimed, hall⟩ := h.given k y hy hgiven
      exact ⟨List.mem_append_left _ hclaimed, hall⟩
  · intro k y hy hk
    rcases Ledger.move_cases hy with ⟨_, x₀, _, rfl⟩ | ⟨hne, hy⟩
    · exact Or.inl trivial
    · refine h.spent k y hy ?_
      rcases List.mem_append.mp hk with hk | hk
      · exact hk
      · exact absurd (List.mem_singleton.mp hk) hne
  · intro k y cert hy hphase
    rcases Ledger.move_cases hy with ⟨_, x₀, _, rfl⟩ | ⟨_, hy⟩
    · simp at hphase
    · exact h.issued k y cert hy hphase

theorem Lawful.removes
    (h : Lawful shows L)
    (o : ι) :
    Lawful shows (L.apply (.removes o)) := by
  have hcases : ∀ k x, (L.apply (.removes o)).orders k = some x → L.orders k = some x := by
    intro k x hx
    by_cases hk : k = o
    · subst hk
      simp [Ledger.apply] at hx
    · simpa only [Ledger.apply, Function.update_of_ne hk] using hx
  constructor
  · exact h.attempts
  · exact h.opened
  · intro k hk
    obtain ⟨x, hx⟩ := Option.isSome_iff_exists.mp hk
    exact h.known k (by rw [hcases k x hx]; rfl)
  · exact h.asked
  · exact h.claimed
  · exact h.once
  · exact h.founded
  · exact fun k x hx hgiven => h.given k x (hcases k x hx) hgiven
  · exact fun k x hx hk => h.spent k x (hcases k x hx) hk
  · exact fun k x cert hx hphase => h.issued k x cert (hcases k x hx) hphase

/-- Every deed keeps the laws. -/
theorem Lawful.apply
    (h : Lawful shows L)
    {d : Deed ι β α ν ε γ}
    (hd : L.Allows shows d) :
    Lawful shows (L.apply d) := by
  cases d with
  | opens o account names => exact h.opens hd account names
  | attempts b o =>
      have hmore : ∀ y ∈ L.attempts, y ∈ L.attempts ++ [(b, o)] := fun y hy =>
        List.mem_append_left _ hy
      refine { h with attempts := ?_, given := ?_ }
      · rw [Ledger.apply, List.map_append]
        refine List.nodup_append.mpr ⟨h.attempts, List.nodup_singleton b, ?_⟩
        rintro k hk l hl rfl
        obtain ⟨⟨b', o'⟩, hmem, rfl⟩ := List.mem_map.mp hk
        have hsame : b' = b := List.mem_singleton.mp hl
        exact hd o' (hsame ▸ hmem)
      · intro k x hx hgiven
        obtain ⟨hclaimed, hproved⟩ := h.given k x hx hgiven
        exact ⟨hclaimed, hproved.mono hmore (fun _ hy => hy) rfl rfl⟩
  | proves b e =>
      refine { h with given := ?_ }
      intro k x hx hgiven
      obtain ⟨hclaimed, hproved⟩ := h.given k x hx hgiven
      exact ⟨hclaimed, hproved.mono (fun _ hy => hy)
        (fun y hy => List.mem_append_left _ hy) rfl rfl⟩
  | readies o =>
      refine h.moved (fun hgiven => hgiven.elim) ?_ (fun _ hvalid => by simp at hvalid)
      intro hclaimed
      obtain ⟨x, hx, hphase⟩ := hd
      rcases h.spent o x hx hclaimed with hgiven | hinvalid
      · rcases hphase with hphase | hphase <;> rw [hphase] at hgiven <;> exact hgiven.elim
      · rcases hphase with hphase | hphase <;> simp [hphase] at hinvalid
  | claims o =>
      obtain ⟨x, hx, hready, hproved⟩ := hd
      exact h.claims hx hready hproved
  | asks o =>
      refine { h with asked := ?_, claimed := ?_, issued := ?_ }
      · exact List.nodup_append.mpr
          ⟨h.asked, List.nodup_singleton o, fun k hk l hl => by
            rintro rfl
            exact hd.2 (List.mem_singleton.mp hl ▸ hk)⟩
      · intro k hk
        rcases List.mem_append.mp hk with hk | hk
        · exact h.claimed k hk
        · rw [List.mem_singleton.mp hk]
          exact hd.1
      · intro k x cert hx hphase
        exact List.mem_append_left _ (h.issued k x cert hx hphase)
  | issues o cert =>
      obtain ⟨hasked, x, hx, hphase⟩ := hd
      refine h.moved (fun _ y hy => ?_) (fun _ => Or.inl trivial) (fun _ _ => hasked)
      rw [← Option.some.inj (hx.symm.trans hy), hphase]
      trivial
  | refuses o =>
      exact h.moved (fun hgiven => hgiven.elim) (fun _ => Or.inr rfl)
        (fun _ hvalid => by simp at hvalid)
  | removes o => exact h.removes o

theorem lawful_of_reachable
    (h : (lifecycle shows).Reachable Guard.free L) :
    Lawful shows L := by
  refine Automaton.Reachable.invariant ?_ ?_ h
  · rintro _ rfl
    exact Lawful.empty
  · intro s d s' hs _ hx
    obtain ⟨hd, rfl⟩ := exec_lifecycle hx
    exact hs.apply hd

/-- An order that has ended stays as it is until it is removed, and does not come
back. -/
def Ended (o : ι) (x : Entry α ν γ) (L : Ledger ι β α ν ε γ) : Prop :=
  o ∈ L.opened ∧ (L.orders o = some x ∨ L.orders o = none)

/-- Whatever moves is not an order that has ended. -/
theorem Ended.move
    {o k : ι}
    {x : Entry α ν γ}
    (hfinal : x.phase.Final)
    (h : Ended o x L)
    {phases : Phase γ → Prop}
    (hstands : L.Stands k phases)
    (hopen : ∀ phase, phases phase → ¬ phase.Final)
    (phase : Phase γ) :
    L.move k phase o = L.orders o := by
  refine Function.update_of_ne ?_ _ _
  rintro rfl
  obtain ⟨y, hy, hphase⟩ := hstands
  rcases h.2 with hx | hnone
  · rw [Option.some.inj (hy.symm.trans hx)] at hphase
    exact hopen _ hphase hfinal
  · simp [hnone] at hy

theorem Ended.apply
    {o : ι}
    {x : Entry α ν γ}
    (hfinal : x.phase.Final)
    (h : Ended o x L)
    {d : Deed ι β α ν ε γ}
    (hd : L.Allows shows d) :
    Ended o x (L.apply d) := by
  cases d with
  | opens k account names =>
      have hne : o ≠ k := by
        rintro rfl
        exact hd h.1
      refine ⟨List.mem_append_left _ h.1, ?_⟩
      simpa only [Ledger.apply, Function.update_of_ne hne] using h.2
  | attempts b k => exact h
  | proves b e => exact h
  | readies k =>
      have hstands : L.Stands k fun phase => phase = .pending ∨ phase = .ready := hd
      have hkeep := h.move hfinal hstands (by rintro _ (rfl | rfl) <;> exact id) .ready
      exact ⟨h.1, by simpa only [Ledger.apply, hkeep] using h.2⟩
  | claims k =>
      obtain ⟨y, hy, hready, _⟩ := hd
      have hkeep := h.move hfinal (show L.Stands k (· = .ready) from ⟨y, hy, hready⟩)
        (by rintro _ rfl; exact id) .processing
      exact ⟨h.1, by simpa only [Ledger.apply, hkeep] using h.2⟩
  | asks k => exact h
  | issues k cert =>
      have hkeep := h.move hfinal hd.2 (by rintro _ rfl; exact id) (.valid cert)
      exact ⟨h.1, by simpa only [Ledger.apply, hkeep] using h.2⟩
  | refuses k =>
      have hstands : L.Stands k fun phase => phase = .pending ∨ phase = .processing := hd
      have hkeep := h.move hfinal hstands (by rintro _ (rfl | rfl) <;> exact id) .invalid
      exact ⟨h.1, by simpa only [Ledger.apply, hkeep] using h.2⟩
  | removes k =>
      refine ⟨h.1, ?_⟩
      by_cases hk : o = k
      · exact Or.inr (by simp [Ledger.apply, hk])
      · simpa only [Ledger.apply, Function.update_of_ne hk] using h.2

/-- A run keeps an order that has ended. -/
theorem ended_run
    {o : ι}
    {x : Entry α ν γ}
    (hfinal : x.phase.Final)
    {L' : Ledger ι β α ν ε γ}
    {ds : List (Deed ι β α ν ε γ)}
    (h : Ended o x L)
    (hrun : (lifecycle shows).Run Guard.free L ds L') :
    Ended o x L' := by
  induction hrun with
  | nil _ => exact h
  | cons _ hx _ ih =>
      obtain ⟨hd, rfl⟩ := exec_lifecycle hx
      exact ih (h.apply hfinal hd)

end Lawful

end Acme
end Yca
