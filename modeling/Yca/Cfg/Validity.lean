import Yca.Cfg.Accepted

/-!
# How long certificates are to last

A validity is a 64-bit integer in the file, an `int` in the configuration, and a number
of nanoseconds when it is added to the clock.  The first step keeps the lower 32 bits,
the last one wraps at 64 bits; the checks between look at the `int` only.
-/

namespace Yca
namespace Cfg

open Yca.Core
open Yca.Core.Toml

section Files

/-- What a file sets a number of days for. -/
inductive Lifetime
  | root
  | ca (purpose : String)
  | leaf (purpose : String)
  deriving DecidableEq

/-- The section it is set in. -/
def Lifetime.section? (tbl : Table) : Lifetime → Option Table
  | root => (tbl.lookup "root").bind Value.asTable
  | ca purpose => ((tbl.lookup "ca").bind Value.asTable).bind fun cas =>
      (cas.lookup purpose).bind Value.asTable
  | leaf purpose => ((tbl.lookup "ca").bind Value.asTable).bind fun cas =>
      (cas.lookup purpose).bind Value.asTable

def Lifetime.key : Lifetime → String
  | root => "valid_days"
  | ca _ => "valid_days"
  | leaf _ => "ee_valid_days"

/-- The integer a file gives. -/
def given (tbl : Table) (l : Lifetime) : Option Int :=
  (l.section? tbl).bind fun t => (t.lookup l.key).bind Value.asInteger

/-- The number of days a configuration holds. -/
def stored (c : Config) : Lifetime → Option Int
  | .root => some c.root.validDays
  | .ca purpose => (c.cas.find? purpose).map fun ca => ca.validDays
  | .leaf purpose => (c.cas.find? purpose).map fun ca => ca.eeValidDays

variable {oidText : String → Option String}

/-- What is read without complaint are the lower 32 bits of what is given. -/
theorem getInt_errs
    {t : Table}
    {sec key : String}
    (h : (getInt t sec key).errs = []) :
    ((t.lookup key).bind Value.asInteger).map toInt = some (getInt t sec key).value := by
  unfold getInt at h ⊢
  split at h
  · rename_i n hn
    simp [hn]
  · simp at h

theorem readCa_days
    {t : Table}
    {sec : String}
    (h : (readCa t sec).errs = []) :
    ((t.lookup "valid_days").bind Value.asInteger).map toInt = some (readCa t sec).value.validDays := by
  simp only [readCa, List.append_eq_nil_iff, Checked.check_errs] at h
  obtain ⟨⟨⟨⟨_, hdays, _⟩, _⟩, _⟩, _⟩ := h
  exact getInt_errs hdays

/-- A CA is read from the section of its purpose, without complaint. -/
theorem lookup_readIssuers
    {rootDays : Int}
    {cas : Table}
    (h : (readIssuers oidText rootDays cas).errs = [])
    (purpose : String) :
    (readIssuers oidText rootDays cas).value.lookup purpose =
        ((cas.lookup purpose).bind Value.asTable).map
          (fun t => (readSigningCa oidText rootDays purpose t).value) ∧
      ∀ t, (cas.lookup purpose).bind Value.asTable = some t →
        (readSigningCa oidText rootDays purpose t).errs = [] := by
  induction cas with
  | nil => simp [readIssuers]
  | cons e rest ih =>
      obtain ⟨purpose', node⟩ := e
      cases htable : node.asTable with
      | none => simp [readIssuers, htable] at h
      | some t =>
          simp only [readIssuers, htable, List.append_eq_nil_iff] at h ⊢
          by_cases hsame : purpose = purpose'
          · subst hsame
            simp [htable, h.1]
          · have hbeq : (purpose == purpose') = false := by simpa using hsame
            simpa [List.lookup_cons, hbeq] using ih h.2

theorem readSigningCa_days
    {rootDays : Int}
    {purpose : String}
    {t : Table}
    (h : (readSigningCa oidText rootDays purpose t).errs = []) :
    ((t.lookup "valid_days").bind Value.asInteger).map toInt =
        some (readSigningCa oidText rootDays purpose t).value.validDays ∧
      ((t.lookup "ee_valid_days").bind Value.asInteger).map toInt =
        some (readSigningCa oidText rootDays purpose t).value.eeValidDays := by
  simp only [readSigningCa, List.append_eq_nil_iff, Checked.check_errs] at h
  obtain ⟨⟨⟨⟨⟨⟨⟨⟨⟨⟨_, hfields⟩, _⟩, _⟩, _⟩, _⟩, _⟩, _⟩, _⟩, hdays, _⟩, _⟩ := h
  exact ⟨readCa_days hfields, getInt_errs hdays⟩

theorem find?_readCas
    {rootDays : Int}
    {tbl : Table}
    (h : (readCas oidText rootDays tbl).errs = [])
    (purpose : String) :
    (readCas oidText rootDays tbl).value.find? purpose =
        ((Lifetime.ca purpose).section? tbl).map
          (fun t => (readSigningCa oidText rootDays purpose t).value) ∧
      ∀ t, (Lifetime.ca purpose).section? tbl = some t →
        (readSigningCa oidText rootDays purpose t).errs = [] := by
  unfold readCas at h ⊢
  cases hsection : (tbl.lookup "ca").bind Value.asTable with
  | none => simp [hsection] at h
  | some cas =>
      simp only [hsection] at h
      simp only [Lifetime.section?, hsection, Option.bind_some, OrderedMap.find?_ofEntries]
      exact lookup_readIssuers h purpose

/-- What a loaded configuration holds are the lower 32 bits of what the file gives. -/
theorem stored_of_loadTable
    {tbl : Table}
    {c : Config}
    (h : loadTable oidText tbl = .ok c)
    (l : Lifetime) :
    stored c l = (given tbl l).map toInt := by
  unfold loadTable at h
  split_ifs at h with herrs
  obtain rfl := Except.ok.inj h
  simp only [loadErrors, List.append_eq_nil_iff] at herrs
  obtain ⟨⟨⟨⟨⟨⟨_, hroot⟩, hcas⟩, _⟩, _⟩, _⟩, _⟩ := herrs
  have hissuer (purpose : String) := find?_readCas hcas purpose
  cases l with
  | root =>
      obtain ⟨t, hsection, hread⟩ := readRoot_eq hroot
      rw [hread] at hroot
      rw [given, Lifetime.section?, hsection, Option.bind_some, Lifetime.key, readCa_days hroot,
        stored, Config.resolved, declared, hread]
  | ca purpose =>
      obtain ⟨hfind, herrs⟩ := hissuer purpose
      rw [stored, Config.resolved, declared, OrderedMap.find?_mapValues, hfind, given]
      cases hsection : (Lifetime.ca purpose).section? tbl with
      | none => rfl
      | some t =>
          simp only [Option.map_some, Option.bind_some, Lifetime.key]
          exact (readSigningCa_days (herrs t hsection)).1.symm
  | leaf purpose =>
      obtain ⟨hfind, herrs⟩ := hissuer purpose
      rw [stored, Config.resolved, declared, OrderedMap.find?_mapValues, hfind, given]
      change _ = (((Lifetime.ca purpose).section? tbl).bind _).map toInt
      cases hsection : (Lifetime.ca purpose).section? tbl with
      | none => rfl
      | some t =>
          simp only [Option.map_some, Option.bind_some, Lifetime.key]
          exact (readSigningCa_days (herrs t hsection)).2.symm

end Files

section Clock

/-- The nanoseconds of a day. -/
def ticksPerDay : Int :=
  86400 * 10 ^ 9

/-- Arithmetic on the 64-bit count of nanoseconds. -/
def wrap64 (n : Int) : Int :=
  n.bmod (2 ^ 64)

/-- `now + std::chrono::days(days)`. -/
def addDays (now days : Int) : Int :=
  wrap64 (now + wrap64 (days * ticksPerDay))

/-- `to_time_t`: whole seconds, towards zero. -/
def toTimeT (t : Int) : Int :=
  t.tdiv (10 ^ 9)

/-- The validity of a certificate, in seconds. -/
structure Validity where
  notBefore : Int
  notAfter : Int
  deriving DecidableEq

/-- The validity `create` and `mint_ca_generation` give a CA certificate. -/
def caValidity (now days : Int) : Validity where
  notBefore := toTimeT now
  notAfter := toTimeT (addDays now days)

/-- The certificate lasts so many days, and the arithmetic does not wrap. -/
structure Lasts (now days : Int) : Prop where
  product : wrap64 (days * ticksPerDay) = days * ticksPerDay
  sum : addDays now days = now + days * ticksPerDay
  difference : (caValidity now days).notAfter - (caValidity now days).notBefore = days * 86400

theorem wrap64_lt (n : Int) : wrap64 n < 2 ^ 63 := by
  have h := Int.bmod_lt (x := n) (m := 2 ^ 64) (by decide)
  unfold wrap64
  omega

theorem wrap64_of_lt {n : Int} (hlow : 0 ≤ n) (hhigh : n < 2 ^ 63) : wrap64 n = n := by
  unfold wrap64
  rw [Int.bmod_eq_of_le]
  · omega
  · omega

/-- A certificate lasts as long as it is to exactly when its end fits the clock. -/
theorem lasts_iff
    {now days : Int}
    (hnow : 0 ≤ now)
    (hdays : 0 < days) :
    Lasts now days ↔ now + days * ticksPerDay < 2 ^ 63 := by
  have hticks : 0 < ticksPerDay := by decide
  have hproduct : 0 ≤ days * ticksPerDay := Int.mul_nonneg (Int.le_of_lt hdays) (Int.le_of_lt hticks)
  constructor
  · intro h
    rw [← h.sum]
    exact wrap64_lt _
  · intro h
    have hwhole : wrap64 (days * ticksPerDay) = days * ticksPerDay :=
      wrap64_of_lt hproduct (by omega)
    have hsum : addDays now days = now + days * ticksPerDay := by
      rw [addDays, hwhole]
      exact wrap64_of_lt (by omega) h
    constructor
    case product => exact hwhole
    case sum => exact hsum
    case difference =>
      simp only [caValidity, hsum, toTimeT]
      rw [Int.tdiv_eq_ediv_of_nonneg hnow, Int.tdiv_eq_ediv_of_nonneg (by omega)]
      unfold ticksPerDay
      omega

/-- On the clock a certificate ends so many days of seconds after it begins. -/
theorem caValidity_of_onClock
    {now days : Nat}
    (h : Ca.OnClock (now / 10 ^ 9 + days * 86400)) :
    caValidity now days = ⟨(now / 10 ^ 9 : Nat), (now / 10 ^ 9 + days * 86400 : Nat)⟩ := by
  unfold Ca.OnClock at h
  have hwhole : wrap64 (days * ticksPerDay) = days * ticksPerDay := by
    unfold ticksPerDay
    exact wrap64_of_lt (by omega) (by omega)
  have hsum : addDays now days = now + days * ticksPerDay := by
    rw [addDays, hwhole]
    unfold ticksPerDay
    exact wrap64_of_lt (by omega) (by omega)
  rw [caValidity, hsum, toTimeT, toTimeT, Validity.mk.injEq]
  unfold ticksPerDay
  constructor
  · rw [Int.tdiv_eq_ediv_of_nonneg (by omega)]
    omega
  · rw [Int.tdiv_eq_ediv_of_nonneg (by omega)]
    omega

end Clock

section Kept

variable {oidText : String → Option String} {parse : String → Except ParseError Table}
  {path text : String} {tbl : Table} {c : Config} {now : Nat}

theorem toInt_eq_iff (n : Int) : toInt n = n ↔ -2 ^ 31 ≤ n ∧ n < 2 ^ 31 := by
  have hlow := Int.le_bmod (x := n) (m := 2 ^ 32) (by decide)
  constructor
  · intro h
    have hhigh := toInt_lt n
    unfold toInt at h hhigh
    omega
  · rintro ⟨h₁, h₂⟩
    unfold toInt
    rw [Int.bmod_eq_of_le]
    · omega
    · omega

/-- The days a file gives are stored as they are, and the certificates `create` and
`mint_ca_generation` build last that long. -/
structure DaysKept (tbl : Table) (c : Config) (now : Nat) : Prop where
  stored : ∀ l n, given tbl l = some n → stored c l = some n
  lasts : ∀ l days, (∀ purpose, l ≠ .leaf purpose) → Cfg.stored c l = some days → Lasts now days

/-- Every number of days fits an `int`, and a root made now ends within the clock. -/
structure DaysFit (tbl : Table) (now : Nat) : Prop where
  int : ∀ l n, given tbl l = some n → -2 ^ 31 ≤ n ∧ n < 2 ^ 31
  clock : ∀ n, given tbl .root = some n → (now : Int) + n * ticksPerDay < 2 ^ 63

theorem stored_of_load
    (hparse : parse text = .ok tbl)
    (hload : load oidText parse path (some text) = .ok c)
    (l : Lifetime) :
    Cfg.stored c l = (given tbl l).map toInt := by
  simp only [load, hparse] at hload
  exact stored_of_loadTable hload l

/-- Days of a CA are positive, and no more than those of the root. -/
theorem days_bounds
    (hload : load oidText parse path (some text) = .ok c)
    {l : Lifetime}
    {days : Int}
    (hl : ∀ purpose, l ≠ .leaf purpose)
    (hstored : Cfg.stored c l = some days) :
    0 < days ∧ days ≤ c.root.validDays := by
  have haccepted := load_accepted hload
  cases l with
  | root =>
      obtain rfl := Option.some.inj hstored
      exact ⟨haccepted.root.validDays.1, Int.le_refl _⟩
  | ca purpose =>
      obtain ⟨ca, hfind, rfl⟩ := Option.map_eq_some_iff.mp hstored
      have hvalid := (haccepted.cas purpose ca hfind).2
      exact ⟨hvalid.validDays.1, Int.le_of_lt hvalid.belowRoot⟩
  | leaf purpose => exact absurd rfl (hl purpose)

/-- Whatever a file gives for a number of days is refused or kept to exactly when, if the
file is accepted, its numbers fit. -/
theorem days_kept_iff
    (oidText : String → Option String)
    (parse : String → Except ParseError Table)
    (path text : String)
    (now : Nat) :
    (∀ tbl c, parse text = .ok tbl → load oidText parse path (some text) = .ok c →
        DaysKept tbl c now) ↔
      ∀ tbl c, parse text = .ok tbl → load oidText parse path (some text) = .ok c →
        DaysFit tbl now := by
  constructor
  · intro h tbl c hparse hload
    have hkept := h tbl c hparse hload
    constructor
    case int =>
      intro l n hgiven
      have hsame := hkept.stored l n hgiven
      rw [stored_of_load hparse hload, hgiven] at hsame
      exact (toInt_eq_iff n).mp (Option.some.inj hsame)
    case clock =>
      intro n hgiven
      have hroot := hkept.stored .root n hgiven
      have hbounds := days_bounds hload (by simp) hroot
      exact (lasts_iff (Int.natCast_nonneg now) hbounds.1).mp
        (hkept.lasts .root n (by simp) hroot)
  · intro h tbl c hparse hload
    have hfit := h tbl c hparse hload
    have hstored : ∀ l n, given tbl l = some n → Cfg.stored c l = some n := by
      intro l n hgiven
      rw [stored_of_load hparse hload, hgiven, Option.map_some,
        (toInt_eq_iff n).mpr (hfit.int l n hgiven)]
    constructor
    case stored => exact hstored
    case lasts =>
      intro l days hl hdays
      have hbounds := days_bounds hload hl hdays
      have hroot : Cfg.stored c .root = some c.root.validDays := rfl
      rw [stored_of_load hparse hload, Option.map_eq_some_iff] at hroot
      obtain ⟨n, hgiven, hn⟩ := hroot
      have hclock := hfit.clock n hgiven
      rw [(toInt_eq_iff n).mpr (hfit.int .root n hgiven)] at hn
      refine (lasts_iff (Int.natCast_nonneg now) hbounds.1).mpr ?_
      unfold ticksPerDay at hclock ⊢
      omega

/-- The sample file with another number of days for its root. -/
def daysTable (rootDays : Int) : Table :=
  (sampleTable "Example Ltd").map fun e =>
    if e.1 = "root" then
      (e.1, .table
        [ ("cn", .string "Example Root"),
          ("curve", .string "secp384r1"),
          ("digest", .string "SHA-384"),
          ("slug_prefix", .string "root-r"),
          ("valid_days", .integer rootDays) ] false)
    else e

/-- In the middle of 2025. -/
def sampleNow : Nat :=
  1750000000000000000

def daysParse (rootDays : Int) (_ : String) : Except ParseError Table :=
  .ok (daysTable rootDays)

def daysConfig (rootDays : Int) : Config :=
  (declared sampleOid (daysTable rootDays)).resolved

theorem load_daysParse
    {rootDays : Int}
    (h : loadErrors sampleOid (daysTable rootDays) = []) :
    load sampleOid (daysParse rootDays) "yca.toml" (some "") = .ok (daysConfig rootDays) := by
  simp only [load, daysParse, loadTable, h, if_true, daysConfig]

/-- A number of days beyond the `int` is accepted and stored as another, and one within
it is accepted and ends beyond the clock. -/
theorem days_lost :
    (¬ ∀ tbl c, daysParse 4294974596 "" = .ok tbl →
        load sampleOid (daysParse 4294974596) "yca.toml" (some "") = .ok c →
        DaysKept tbl c sampleNow) ∧
      stored (daysConfig 4294974596) .root = some 7300 ∧
      (¬ ∀ tbl c, daysParse 100000 "" = .ok tbl →
        load sampleOid (daysParse 100000) "yca.toml" (some "") = .ok c →
        DaysKept tbl c sampleNow) ∧
      caValidity sampleNow 100000 = ⟨1750000000, -8056744073⟩ := by
  have hnarrowed : stored (daysConfig 4294974596) .root = some 7300 := by decide
  refine ⟨?_, hnarrowed, ?_, by decide⟩
  · intro h
    have hkept := h _ _ rfl (load_daysParse (by decide))
    have hsame := hkept.stored .root 4294974596 (by decide)
    rw [hnarrowed] at hsame
    exact absurd hsame (by decide)
  · intro h
    have hkept := h _ _ rfl (load_daysParse (by decide))
    have hlasts := hkept.lasts .root 100000 (by simp) (by decide)
    exact absurd hlasts.sum (by decide)

end Kept

end Cfg
end Yca
