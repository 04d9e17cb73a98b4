import Yca.Ca.Conduct
import Yca.Ca.Founding
import Yca.Ca.Uniqueness
import Mathlib.Data.List.Pairwise

/-!
# Sections that never met in one file

`cfg::load` checks the sections of one file against each other.  The sections in
a store come from many files: `add signing-ca` locks one section of the file at
hand, whatever the store has locked before, and compares common names only.  The
laws of one file survive exactly the additions whose section keeps them together
with what is locked.
-/

namespace Yca
namespace Ca

open Yca.Core

/-- No generation of one CA shares its slug with a generation of another. -/
def SlugsApart (a b : String) : Prop :=
  ∀ m n, 0 < m → 0 < n → a ++ toString m ≠ b ++ toString n

/-- The second prefix is the first with the start of a number after it. -/
def numbersInto (a b : String) : Bool :=
  digitsApart a b && (b.toList.drop a.toList.length).head? != some '0'

/-- What `cfg::load` enforces across the sections of one file. -/
structure CrossCa (config : Config) : Prop where
  profiles : ∀ ca ∈ config.cas, ∀ ca' ∈ config.cas, ca.purpose ≠ ca'.purpose →
    ∀ profile ∈ ca.profiles, profile ∉ ca'.profiles
  rootSlugs : ∀ ca ∈ config.cas, SlugsApart config.root.slugPrefix ca.slugPrefix
  slugs : ∀ ca ∈ config.cas, ∀ ca' ∈ config.cas, ca.purpose ≠ ca'.purpose →
    SlugsApart ca.slugPrefix ca'.slugPrefix
  validDays : ∀ ca ∈ config.cas, ca.validDays < config.root.validDays

/-- A section fits the locked ones: its profiles are unclaimed, its prefix is not
one of theirs with or without the start of a number after it, nor they its, and
it lives shorter than the root. -/
structure Joins (config : Config) (ca : SigningCa) : Prop where
  profiles : ∀ held ∈ config.cas, ∀ profile ∈ held.profiles, profile ∉ ca.profiles
  slugs : ∀ held ∈ config.slugPrefixes,
    numbersInto held ca.slugPrefix = false ∧ numbersInto ca.slugPrefix held = false
  validDays : ca.validDays < config.root.validDays

instance (config : Config) (ca : SigningCa) : Decidable (Joins config ca) :=
  decidable_of_iff
    ((∀ held ∈ config.cas, ∀ profile ∈ held.profiles, profile ∉ ca.profiles) ∧
      (∀ held ∈ config.slugPrefixes,
        numbersInto held ca.slugPrefix = false ∧ numbersInto ca.slugPrefix held = false) ∧
      ca.validDays < config.root.validDays)
    ⟨fun h => ⟨h.1, h.2.1, h.2.2⟩, fun h => ⟨h.profiles, h.slugs, h.validDays⟩⟩

section Numbers

/-- A digit is the text of its value. -/
theorem toDigits_decimal
    {c : Char}
    (hc : decimal c = true) :
    ∃ d, d < 10 ∧ Nat.toDigits 10 d = [c] ∧ (c ≠ '0' → 0 < d) := by
  have hbounds : '0' ≤ c ∧ c ≤ '9' := by simpa [decimal] using hc
  have hlow : 48 ≤ c.toNat := hbounds.1
  have hhigh : c.toNat ≤ 57 := hbounds.2
  have hall : ∀ d : Fin 10, Nat.toDigits 10 d = [Char.ofNat (48 + d)] := by decide
  have hone := hall ⟨c.toNat - 48, by omega⟩
  rw [show 48 + (c.toNat - 48) = c.toNat by omega, Char.ofNat_toNat] at hone
  refine ⟨c.toNat - 48, by omega, hone, ?_⟩
  intro hne
  have hzero : c.toNat ≠ '0'.toNat := fun heq => hne (Char.toNat_inj.mp heq)
  have hcode : '0'.toNat = 48 := rfl
  omega

/-- A number whose first digits are those of a positive one. -/
theorem toDigits_append
    {ds : List Char}
    {k : Nat}
    (hk : 0 < k)
    (hds : ∀ c ∈ ds, decimal c = true) :
    ∃ n, 0 < n ∧ Nat.toDigits 10 k ++ ds = Nat.toDigits 10 n := by
  induction ds generalizing k with
  | nil => exact ⟨k, hk, List.append_nil _⟩
  | cons c ds ih =>
      obtain ⟨d, hd, hdigit, _⟩ := toDigits_decimal (hds c List.mem_cons_self)
      have hstep := Nat.toDigits_append_toDigits (by omega) hk hd
      have hpos : 0 < 10 * k + d := by omega
      obtain ⟨n, hn, heq⟩ := ih hpos fun c hc => hds c (List.mem_cons_of_mem _ hc)
      refine ⟨n, hn, ?_⟩
      rw [← heq, ← hstep, hdigit]
      simp

/-- Digits that do not start with a zero are those of a number. -/
theorem toDigits_of_decimal
    {c : Char}
    {ds : List Char}
    (hc : decimal c = true)
    (hne : c ≠ '0')
    (hds : ∀ c ∈ ds, decimal c = true) :
    ∃ n, 0 < n ∧ c :: ds = Nat.toDigits 10 n := by
  obtain ⟨d, _, hdigit, hpos⟩ := toDigits_decimal hc
  obtain ⟨n, hn, heq⟩ := toDigits_append (hpos hne) hds
  refine ⟨n, hn, ?_⟩
  rw [← heq, hdigit]
  rfl

/-- A positive number does not start with a zero. -/
theorem head_toDigits
    {n : Nat}
    (hn : 0 < n) :
    (Nat.toDigits 10 n).head? ≠ some '0' := by
  induction n using Nat.strongRecOn with
  | ind n ih =>
      by_cases hlt : n < 10
      · rw [Nat.toDigits_of_lt_base hlt]
        have hall : ∀ d : Fin 10, 0 < d.val → [Nat.digitChar d].head? ≠ some '0' := by decide
        exact hall ⟨n, hlt⟩ hn
      · rw [Nat.toDigits_of_base_le (by omega) (by omega),
          List.head?_append_of_ne_nil _ Nat.toDigits_ne_nil]
        exact ih (n / 10) (by omega) (by omega)

end Numbers

section Slugs

variable {a b : String}

theorem numbersInto_iff :
    numbersInto a b = true ↔
      ∃ rest, b.toList = a.toList ++ rest ∧ (∀ c ∈ rest, decimal c = true) ∧
        rest.head? ≠ some '0' := by
  simp only [numbersInto, digitsApart, Bool.and_eq_true, List.isPrefixOf_iff_prefix,
    List.all_eq_true, bne_iff_ne]
  constructor
  · rintro ⟨⟨⟨rest, hrest⟩, hdigits⟩, hhead⟩
    rw [← hrest, List.drop_left] at hdigits hhead
    exact ⟨rest, hrest.symm, hdigits, hhead⟩
  · rintro ⟨rest, hrest, hdigits, hhead⟩
    rw [hrest, List.drop_left]
    exact ⟨⟨List.prefix_append _ _, hdigits⟩, hhead⟩

/-- The longer prefix of two equal slugs is the shorter one with the start of a
number after it. -/
theorem numbersInto_of_slug
    {m n : Nat}
    (hm : 0 < m)
    (hle : a.toList.length ≤ b.toList.length)
    (h : a ++ toString m = b ++ toString n) :
    numbersInto a b = true := by
  obtain ⟨rest, hrest, hlist⟩ := slug_rest hle h
  refine numbersInto_iff.mpr ⟨rest, hrest, ?_, ?_⟩
  · intro c hc
    refine decimal_toString (n := m) ?_
    rw [hlist]
    exact List.mem_append_left _ hc
  · intro hzero
    have hhead := head_toDigits hm
    rw [Nat.toString_eq_ofList_toDigits, String.toList_ofList] at hlist
    rw [hlist] at hhead
    cases rest with
    | nil => simp at hzero
    | cons c rest => exact hhead hzero

/-- A prefix with the start of a number after it meets the shorter one. -/
theorem slug_of_numbersInto
    (h : numbersInto a b = true) :
    ∃ m n, 0 < m ∧ 0 < n ∧ a ++ toString m = b ++ toString n := by
  obtain ⟨rest, hrest, hdigits, hhead⟩ := numbersInto_iff.mp h
  have hone : (toString 1).toList = ['1'] := rfl
  obtain ⟨m, hm, hdigitsM⟩ : ∃ m, 0 < m ∧ rest ++ ['1'] = Nat.toDigits 10 m := by
    cases rest with
    | nil => exact ⟨1, Nat.one_pos, rfl⟩
    | cons c rest =>
        refine toDigits_of_decimal (hdigits c List.mem_cons_self) (by simpa using hhead) ?_
        intro d hd
        rcases List.mem_append.mp hd with hold | hlast
        · exact hdigits d (List.mem_cons_of_mem _ hold)
        · rw [List.mem_singleton.mp hlast]
          decide
  refine ⟨m, 1, hm, Nat.one_pos, String.toList_injective ?_⟩
  rw [String.toList_append, String.toList_append, hrest, hone, List.append_assoc, hdigitsM,
    Nat.toString_eq_ofList_toDigits, String.toList_ofList]

/-- Slugs stay apart exactly when neither prefix numbers into the other. -/
theorem slugsApart_iff :
    SlugsApart a b ↔ numbersInto a b = false ∧ numbersInto b a = false := by
  constructor
  · intro h
    constructor
    · by_contra hnot
      obtain ⟨m, n, hm, hn, heq⟩ := slug_of_numbersInto (by simpa using hnot)
      exact h m n hm hn heq
    · by_contra hnot
      obtain ⟨m, n, hm, hn, heq⟩ := slug_of_numbersInto (by simpa using hnot)
      exact h n m hn hm heq.symm
  · rintro ⟨hab, hba⟩ m n hm hn heq
    rcases Nat.le_total a.toList.length b.toList.length with hle | hle
    · rw [numbersInto_of_slug hm hle heq] at hab
      simp at hab
    · rw [numbersInto_of_slug hn hle heq.symm] at hba
      simp at hba

theorem SlugsApart.symm
    (h : SlugsApart a b) :
    SlugsApart b a :=
  fun m n hm hn heq => h n m hn hm heq.symm

end Slugs

section Unions

variable {config : Config} {ca : SigningCa}

/-- A section that fits joins the locked ones lawfully. -/
theorem CrossCa.join
    (h : CrossCa config)
    (hjoins : Joins config ca) :
    CrossCa ⟨config.root, config.cas ++ [ca]⟩ := by
  have hslugs : ∀ held ∈ config.slugPrefixes, SlugsApart held ca.slugPrefix :=
    fun held hheld => slugsApart_iff.mpr (hjoins.slugs held hheld)
  have hheldSlugs : ∀ held ∈ config.cas, SlugsApart held.slugPrefix ca.slugPrefix :=
    fun held hheld => hslugs _ (List.mem_cons_of_mem _ (List.mem_map_of_mem hheld))
  constructor
  · intro x hx y hy hne
    rcases List.mem_append.mp hx with hx | hx
    · rcases List.mem_append.mp hy with hy | hy
      · exact h.profiles x hx y hy hne
      · rw [List.mem_singleton.mp hy]
        exact hjoins.profiles x hx
    · rcases List.mem_append.mp hy with hy | hy
      · rw [List.mem_singleton.mp hx]
        intro profile hprofile hheld
        exact hjoins.profiles y hy profile hheld hprofile
      · rw [List.mem_singleton.mp hx, List.mem_singleton.mp hy] at hne
        exact absurd rfl hne
  · intro x hx
    rcases List.mem_append.mp hx with hx | hx
    · exact h.rootSlugs x hx
    · rw [List.mem_singleton.mp hx]
      exact hslugs _ List.mem_cons_self
  · intro x hx y hy hne
    rcases List.mem_append.mp hx with hx | hx
    · rcases List.mem_append.mp hy with hy | hy
      · exact h.slugs x hx y hy hne
      · rw [List.mem_singleton.mp hy]
        exact hheldSlugs x hx
    · rcases List.mem_append.mp hy with hy | hy
      · rw [List.mem_singleton.mp hx]
        exact (hheldSlugs y hy).symm
      · rw [List.mem_singleton.mp hx, List.mem_singleton.mp hy] at hne
        exact absurd rfl hne
  · intro x hx
    rcases List.mem_append.mp hx with hx | hx
    · exact h.validDays x hx
    · rw [List.mem_singleton.mp hx]
      exact hjoins.validDays

/-- A section of a new purpose that joined lawfully fits. -/
theorem CrossCa.joins
    (h : CrossCa ⟨config.root, config.cas ++ [ca]⟩)
    (hnew : ∀ held ∈ config.cas, held.purpose ≠ ca.purpose) :
    Joins config ca := by
  have hself : ca ∈ config.cas ++ [ca] := List.mem_append_right _ List.mem_cons_self
  constructor
  · intro held hheld
    exact h.profiles held (List.mem_append_left _ hheld) ca hself (hnew held hheld)
  · intro held hheld
    rw [← slugsApart_iff]
    rcases List.mem_cons.mp hheld with rfl | hheld
    · exact h.rootSlugs ca hself
    · obtain ⟨owner, howner, rfl⟩ := List.mem_map.mp hheld
      exact h.slugs owner (List.mem_append_left _ howner) ca hself (hnew owner howner)
  · exact h.validDays ca hself

theorem Config.Loaded.crossCa
    (h : config.Loaded) :
    CrossCa config := by
  have hapart : ∀ a ∈ config.slugPrefixes, ∀ b ∈ config.slugPrefixes, a ≠ b →
      SlugsApart a b := by
    intro a ha b hb hne
    rw [slugsApart_iff]
    simp [numbersInto, h.apart a ha b hb hne, h.apart b hb a ha (Ne.symm hne)]
  obtain ⟨hroot, hcas⟩ := List.nodup_cons.mp h.slugPrefixes
  have hmem : ∀ ca ∈ config.cas, ca.slugPrefix ∈ config.slugPrefixes :=
    fun ca hca => List.mem_cons_of_mem _ (List.mem_map_of_mem hca)
  constructor
  · intro ca hca ca' hca' hne profile hprofile hprofile'
    have hpairwise := (List.nodup_flatMap.mp h.profiles).2
    have hsymm : Std.Symm (Function.onFun List.Disjoint SigningCa.profiles) :=
      ⟨fun _ _ hdisjoint _ ha hb => hdisjoint hb ha⟩
    have hother : ca ≠ ca' := by
      rintro rfl
      exact hne rfl
    exact hpairwise.forall hca hca' hother hprofile hprofile'
  · intro ca hca
    refine hapart _ List.mem_cons_self _ (hmem ca hca) ?_
    intro heq
    exact hroot (List.mem_map.mpr ⟨ca, hca, heq.symm⟩)
  · intro ca hca ca' hca' hne
    refine hapart _ (hmem ca hca) _ (hmem ca' hca') ?_
    intro heq
    rw [List.inj_on_of_nodup_map hcas hca hca' heq] at hne
    exact hne rfl
  · exact h.validDays

end Unions

section Runs

/-- A section that a transaction locks fits the locked ones. -/
def JoinsLocked (s : Store) : Event → Prop
  | .commit (.generation _ _ _ (some ca)) => Joins s.db.loadConfig ca
  | _ => True

instance (s : Store) (e : Event) : Decidable (JoinsLocked s e) := by
  unfold JoinsLocked
  split <;> infer_instance

/-- Runs in which every added section fits. -/
abbrev Rules.joining : Rules :=
  Rules.given JoinsLocked

/-- `add signing-ca` is run with a file that `cfg::load` accepts. -/
def Request.Loads : Request → Prop
  | .addSigningCa file _ => file.Loaded
  | _ => True

instance : DecidablePred Request.Loads := by
  intro req
  unfold Request.Loads
  split <;> infer_instance

/-- An added section that fits keeps the laws. -/
theorem CrossCa.event
    {p : Pid}
    {s : Store}
    {e : Event}
    {r : Rules}
    (h : CrossCa s.db.loadConfig)
    (hjoins : JoinsLocked s e)
    (hmeets : Meets r p s e) :
    CrossCa (s.apply p e).db.loadConfig := by
  cases e with
  | key use =>
      rw [(apply_key_db p use s).1]
      exact h
  | publish slug issuer file => cases file <;> exact h
  | commit tx =>
      obtain ⟨db, hdb⟩ := Option.isSome_iff_exists.mp hmeets.2.1
      rw [apply_commit p hdb]
      show CrossCa db.loadConfig
      rw [(run_config hdb).1]
      cases hlocks : tx.locks with
      | none =>
          rw [Option.toList_none, List.append_nil]
          exact h
      | some ca =>
          cases tx with
          | generation next cert key lock =>
              obtain rfl : lock = some ca := hlocks
              exact h.join hjoins
          | _ => simp [Tx.locks] at hlocks
  | _ => exact h

/-- The laws of one file hold of the locked sections in every run whose added
sections fit; and an addition keeps them only if its section fits. -/
theorem sections_lawful_iff_joining (w : World Store (Request × Command)) :
    ((ycaCalls.system Founded).Reachable (Rules.joining.calls Request.Loads) w →
      CrossCa w.shared.db.loadConfig) ∧
    ∀ w' p req next cert key ca,
      (ycaCalls.system Founded).Reachable (Rules.free.calls Request.Loads) w →
      machine.Emits start (Rules.free.calls Request.Loads) w p req
        (.commit (.generation next cert key (some ca))) w' →
      CrossCa w.shared.db.loadConfig →
      (CrossCa w'.shared.db.loadConfig ↔ Joins w.shared.db.loadConfig ca) := by
  constructor
  · intro hw
    refine calls_keep (P := fun s => CrossCa s.db.loadConfig)
      (fun req _ => Rules.given_admits _ req) ?_ ?_ hw
    · intro s hs
      obtain ⟨config, _, _, _, hloaded, hceremony⟩ := hs.ceremony
      have hconfig : s.db.loadConfig = config := by
        rw [hceremony.db]
        rfl
      rw [hconfig]
      exact hloaded.crossCa
    · intro s s' hs hmove
      refine keeps_of_calls (P := fun s => CrossCa s.db.loadConfig) ?_ ?_ hs hmove
      · intro s p req e hs hallow hmeets _
        exact hs.event (Rules.given_only hallow) hmeets
      · intro s s' hs hdb _ _ _ _
        show CrossCa s'.db.loadConfig
        rw [hdb]
        exact hs
  · intro w' p req next cert key ca hw hemits hlawful
    obtain ⟨_, hmeets, _⟩ := call_emitted (fun req _ => Rules.free_admits req) hw hemits
    obtain ⟨db, hdb⟩ := Option.isSome_iff_exists.mp hmeets.2.1
    have hshared : w'.shared.db = db := by
      rw [hemits.shared]
      exact congrArg Store.db (apply_commit p hdb)
    obtain ⟨hconfig, hnew⟩ := run_config hdb
    rw [hshared, hconfig]
    constructor
    · intro hunion
      exact hunion.joins (hnew ca rfl)
    · intro hjoins
      exact hlawful.join hjoins

/-- `[ca.tls]` of the sample, for some profiles. -/
def tlsSection (profiles : List Profile) : SigningCa :=
  ⟨⟨"CA E1", "secp256r1", 1825, "ca-e", "ca-e1", .internal, ""⟩, "tls", profiles, 90⟩

/-- A section no store has locked yet. -/
def vpnSection (profiles : List Profile) : SigningCa :=
  ⟨⟨"CA V1", "secp256r1", 1825, "ca-v", "ca-v1", .internal, ""⟩, "vpn", profiles, 90⟩

/-- What `init` makes of `[ca.tls]` alone. -/
def tlsStore : Store :=
  (create { sampleConfig with cas := [tlsSection [.server]] } ⟨1, [0x41]⟩ [⟨2, [0x42]⟩]
    (fun _ => []) 1000).getD (blank sampleConfig (fun _ => []) 0)

theorem tlsStore_founded :
    Founded tlsStore :=
  ⟨{ sampleConfig with cas := [tlsSection [.server]] }, ⟨1, [0x41]⟩, [⟨2, [0x42]⟩],
    fun _ => [], 1000, by decide, rfl, by decide, rfl⟩

/-- `vpn` is added, run with a file. -/
def additionLabels (file : Config) : List (Action Choice Request Outside) :=
  [.spawn 1 (.addSigningCa file "vpn")] ++ acts 1 19 (sampleChoice 34)

theorem sections_lawful_iff_joining_sample :
    ∃ w : World Store (Request × Command),
      w.shared.db.purposes.map SigningCa.purpose = ["tls", "vpn"] ∧
        CrossCa w.shared.db.loadConfig := by
  have h :
      ((ycaCalls.system Founded).follow (Rules.joining.calls Request.Loads)
        (World.idle tlsStore)
        (additionLabels { sampleConfig with
          cas := [tlsSection [.server], vpnSection [.client]] })).any
        (fun w => w.shared.db.purposes.map SigningCa.purpose == ["tls", "vpn"]) = true := by
    decide
  obtain ⟨w, hrun, hcheck⟩ := Automaton.Run.exists_of_follow h
  have hw := Automaton.Reachable.of_run (M := ycaCalls.system Founded)
    ⟨tlsStore_founded, World.idle_quiet _⟩ hrun
  exact ⟨w, by simpa using hcheck, (sections_lawful_iff_joining w).1 hw⟩

/-- The file moves `server` from `tls`, as it is locked, to the section it
adds. -/
theorem sections_unlawful :
    ¬ ∀ w, (ycaCalls.system Founded).Reachable (Rules.free.calls Request.Loads) w →
      CrossCa w.shared.db.loadConfig := by
  intro hall
  have h :
      ((ycaCalls.system Founded).follow (Rules.free.calls Request.Loads)
        (World.idle sampleStore)
        (additionLabels { sampleConfig with
          cas := [tlsSection [.client], vpnSection [.server]] })).any
        (fun w => w.shared.db.purposes.any fun ca => w.shared.db.purposes.any fun ca' =>
          decide (ca.purpose ≠ ca'.purpose) && ca.profiles.any fun profile =>
            ca'.profiles.contains profile) = true := by
    decide
  obtain ⟨w, hrun, hcheck⟩ := Automaton.Run.exists_of_follow h
  have hlawful := hall w (Automaton.Reachable.of_run (M := ycaCalls.system Founded)
    ⟨sampleStore_founded, World.idle_quiet _⟩ hrun)
  simp only [List.any_eq_true, Bool.and_eq_true, decide_eq_true_eq, List.contains_iff_mem]
    at hcheck
  obtain ⟨ca, hca, ca', hca', hne, profile, hprofile, hprofile'⟩ := hcheck
  exact hlawful.profiles ca hca ca' hca' hne profile hprofile hprofile'

end Runs

end Ca
end Yca
