import Yca.Ca.Initial
import Yca.Ca.Safety
import Mathlib.Data.List.Sort

/-!
# Listing certificates

`yca list` selects rows of `cert_index` by one filter and prints a line for
each.  The time filters take a window in days; their bounds are computed in
`size_t` and bound as 64-bit integers of SQLite.  Expiry is decided four times:
in the filters `--expiring` and `--expired`, in the status printed for a line,
and in `active_fp`, which selects the certificate of a name for revocation and
renewal.  They agree on every certificate but one that expires this second.
-/

namespace Yca
namespace Ca

section Commands

/-- What `list` selects by. -/
inductive Filter
  | expiring
  | expired
  | revoked
  | last
  | cn (name : String)
  deriving DecidableEq

/-- `app::list_serial_hex`. -/
def listSerialHex : Nat := 32

/-- `days_to_seconds`: unsigned arithmetic of 32 bits. -/
def daysToSeconds (days : Int) : Nat :=
  (days % 2 ^ 32).toNat * 24 * 60 * 60 % 2 ^ 32

/-- A sum of `size_t`. -/
def sizeAdd (a b : Nat) : Nat :=
  (a + b) % 2 ^ 64

/-- A difference of `size_t`. -/
def sizeSub (a b : Nat) : Nat :=
  (a + (2 ^ 64 - b)) % 2 ^ 64

/-- A `size_t` bound to a statement: `static_cast<sqlite3_int64>`. -/
def boundInt (n : Nat) : Int :=
  (n : Int).bmod (2 ^ 64)

/-- `get_size_t`: a column read back. -/
def columnSize (i : Int) : Nat :=
  (i % 2 ^ 64).toNat

/-- The purpose of an alias `<purpose>-ca` for which there is a signing CA. -/
def aliasPurpose (db : Db) (name : String) : String :=
  if ['-', 'c', 'a'].isSuffixOf name.toList then
    let purpose := String.ofList (name.toList.take (name.toList.length - 3))
    if db.certIndex.any fun r => r.kind == .ca .signing && r.purpose == purpose then purpose
    else ""
  else ""

/-- The `WHERE` clause of a filter, at an instant and with a window in seconds. -/
def Filter.condition (db : Db) (now win : Nat) (r : CertRow) : Filter → Bool
  | .expiring =>
      r.status == .active && decide (boundInt r.notAfter > boundInt now) &&
        decide (boundInt r.notAfter ≤ boundInt (sizeAdd now win))
  | .expired =>
      r.status == .active && decide (boundInt r.notAfter < boundInt now) &&
        decide (boundInt r.notAfter ≥ boundInt (sizeSub now win))
  | .revoked =>
      r.status == .revoked && decide (boundInt r.revokedAt ≥ boundInt (sizeSub now win))
  | .last =>
      decide (boundInt r.notBefore ≤ boundInt now) &&
        decide (boundInt r.notBefore ≥ boundInt (sizeSub now win))
  | .cn name =>
      if name = "root-ca" ∨ name = "signing-ca" then
        r.kind == .ca (if name = "root-ca" then .root else .signing)
      else if aliasPurpose db name ≠ "" then
        r.kind == .ca .signing && r.purpose == aliasPurpose db name
      else r.cn == name

/-- The column a filter orders its rows by, the greatest first. -/
def Filter.key (r : CertRow) : Filter → Int
  | .expiring => boundInt r.notAfter
  | .expired => boundInt r.notAfter
  | .revoked => boundInt r.revokedAt
  | .last => boundInt r.notBefore
  | .cn _ => boundInt r.notBefore

/-- The rows a filter selects, in order. -/
def selectRows (db : Db) (filter : Filter) (days : Int) (now : Nat) : List CertRow :=
  (db.certIndex.filter fun r => filter.condition db now (daysToSeconds days) r).insertionSort
    fun a b => filter.key b ≤ filter.key a

/-- A line of the table. -/
structure Line where
  cn : String
  kind : Kind
  serial : String
  expires : String
  status : String
  deriving DecidableEq

/-- The status of a line. -/
def lineStatus (now : Nat) (r : CertRow) : String :=
  if r.status = .revoked then "revoked"
  else if columnSize (boundInt r.notAfter) < now then "expired"
  else "active"

/-- The line of a row; `fmt` is `fmt_epoch`. -/
def lineOf (fmt : Nat → String) (now : Nat) (r : CertRow) : Line where
  cn := r.cn
  kind := r.kind
  serial := String.ofList (r.serial.toList.take listSerialHex)
  expires := fmt (columnSize (boundInt r.notAfter))
  status := lineStatus now r

/-- `list_certs`: the lines, and whether rows were left out. -/
def listCerts (fmt : Nat → String) (db : Db) (filter : Filter) (days limit : Int) (now : Nat) :
    List Line × Bool :=
  let rows := selectRows db filter days now
  let cap := limit.toNat
  let lines := (if limit > 0 then rows.take (cap + 1) else rows).map (lineOf fmt now)
  if limit > 0 ∧ lines.length > cap then (lines.take cap, true) else (lines, false)

end Commands

section Selection

variable {db : Db} {filter : Filter} {days : Int} {now : Nat} {row : CertRow}

theorem mem_selectRows :
    row ∈ selectRows db filter days now ↔
      row ∈ db.certIndex ∧ filter.condition db now (daysToSeconds days) row = true := by
  rw [selectRows, List.mem_insertionSort, List.mem_filter]

theorem daysToSeconds_lt (days : Int) : daysToSeconds days < 2 ^ 32 := by
  unfold daysToSeconds
  exact Nat.mod_lt _ (Nat.two_pow_pos 32)

/-- A bound below the sign bit is bound as it is. -/
theorem boundInt_of_lt {n : Nat} (h : n < 2 ^ 63) : boundInt n = n := by
  unfold boundInt
  refine Int.bmod_eq_of_le ?_ ?_
  · omega
  · omega

theorem boundInt_sizeAdd
    {a b : Nat}
    (h : a + b < 2 ^ 63) :
    boundInt (sizeAdd a b) = a + b := by
  have hmod : sizeAdd a b = a + b := by
    unfold sizeAdd
    exact Nat.mod_eq_of_lt (by omega)
  rw [hmod, boundInt_of_lt h, Int.natCast_add]

/-- A difference below zero is bound as the negative number it is. -/
theorem boundInt_sizeSub
    {a b : Nat}
    (ha : a < 2 ^ 63)
    (hb : b < 2 ^ 63) :
    boundInt (sizeSub a b) = (a : Int) - b := by
  have hcong : ((sizeSub a b : Nat) : Int) = ((a : Int) - b + (2 ^ 64 : Nat)) % (2 ^ 64 : Nat) := by
    unfold sizeSub
    omega
  unfold boundInt
  rw [hcong, Int.emod_bmod, Int.add_bmod_right]
  refine Int.bmod_eq_of_le ?_ ?_
  · omega
  · omega

theorem columnSize_boundInt {n : Nat} (h : n < 2 ^ 63) : columnSize (boundInt n) = n := by
  rw [boundInt_of_lt h, columnSize]
  omega

end Selection

section Expiry

/-- What `now_epoch` can be: the whole seconds of a clock that counts
nanoseconds in 64 bits. -/
structure Instant where
  seconds : Nat
  bounded : seconds ≤ 2 ^ 63 / 10 ^ 9

theorem Instant.lt (now : Instant) : now.seconds < 2 ^ 62 :=
  Nat.lt_of_le_of_lt now.bounded (by decide)

/-- The certificate expires within the window, before or after the instant. -/
def CertRow.Near (row : CertRow) (now : Instant) (days : Int) : Prop :=
  (now.seconds : Int) - daysToSeconds days ≤ row.notAfter ∧
    row.notAfter ≤ now.seconds + daysToSeconds days

/-- `active_fp` may select the certificate: it does when no other one of its
name is there. -/
def MaySelect (db : Db) (now : Nat) (row : CertRow) : Prop :=
  activeFp { db with certIndex := [row] } row.cn row.kind now = some row.fingerprint

/-- One filter lists the certificate, the other does not, and the one that does
agrees with the printed status and with `active_fp`. -/
structure ListedOnce (db : Db) (now : Instant) (days : Int) (row : CertRow) : Prop where
  once : Xor (row ∈ selectRows db .expiring days now.seconds)
    (row ∈ selectRows db .expired days now.seconds)
  expiring : row ∈ selectRows db .expiring days now.seconds →
    lineStatus now.seconds row = "active" ∧ MaySelect db now.seconds row
  expired : row ∈ selectRows db .expired days now.seconds →
    lineStatus now.seconds row = "expired" ∧ ¬ MaySelect db now.seconds row

variable {db : Db} {now : Instant} {days : Int} {row : CertRow}

theorem maySelect_iff {n : Nat} :
    MaySelect db n row ↔ row.status = .active ∧ row.notAfter > n := by
  rw [MaySelect, activeFp]
  by_cases h : row.status = .active ∧ row.notAfter > n
  · simp [h.1, h.2, newest]
  · rw [List.filter_cons_of_neg (by simpa using h)]
    simpa [newest] using h

/-- Within the window no bound and no column wraps. -/
theorem CertRow.Near.lt
    (hnear : row.Near now days) :
    row.notAfter < 2 ^ 63 := by
  have hnow := now.lt
  have hwin := daysToSeconds_lt days
  have hle := hnear.2
  omega

theorem mem_expiring_iff
    (hrow : row ∈ db.certIndex)
    (hactive : row.status = .active)
    (hnear : row.Near now days) :
    row ∈ selectRows db .expiring days now.seconds ↔ now.seconds < row.notAfter := by
  have hnow := now.lt
  have hwin := daysToSeconds_lt days
  have hlast := hnear.lt
  have hle := hnear.2
  have hsum : boundInt (sizeAdd now.seconds (daysToSeconds days)) =
      (now.seconds : Int) + daysToSeconds days := boundInt_sizeAdd (by omega)
  have hcol : boundInt row.notAfter = row.notAfter := boundInt_of_lt hlast
  have hinst : boundInt now.seconds = now.seconds := boundInt_of_lt (by omega)
  rw [mem_selectRows, Filter.condition]
  simp only [hrow, true_and, hactive, beq_self_eq_true, Bool.true_and, Bool.and_eq_true,
    decide_eq_true_eq, hsum, hcol, hinst]
  omega

theorem mem_expired_iff
    (hrow : row ∈ db.certIndex)
    (hactive : row.status = .active)
    (hnear : row.Near now days) :
    row ∈ selectRows db .expired days now.seconds ↔ row.notAfter < now.seconds := by
  have hnow := now.lt
  have hwin := daysToSeconds_lt days
  have hlast := hnear.lt
  have hge := hnear.1
  have hdiff : boundInt (sizeSub now.seconds (daysToSeconds days)) =
      (now.seconds : Int) - daysToSeconds days := boundInt_sizeSub (by omega) (by omega)
  have hcol : boundInt row.notAfter = row.notAfter := boundInt_of_lt hlast
  have hinst : boundInt now.seconds = now.seconds := boundInt_of_lt (by omega)
  rw [mem_selectRows, Filter.condition]
  simp only [hrow, true_and, hactive, beq_self_eq_true, Bool.true_and, Bool.and_eq_true,
    decide_eq_true_eq, hdiff, hcol, hinst]
  omega

/-- One certificate within the window. -/
theorem listedOnce_iff
    (hrow : row ∈ db.certIndex)
    (hactive : row.status = .active)
    (hnear : row.Near now days) :
    ListedOnce db now days row ↔ row.notAfter ≠ now.seconds := by
  have hcol := columnSize_boundInt hnear.lt
  have hexpiring := mem_expiring_iff hrow hactive hnear
  have hexpired := mem_expired_iff hrow hactive hnear
  have hkept : row.status ≠ .revoked := by
    rw [hactive]
    decide
  constructor
  · intro h heq
    rcases h.once with ⟨hin, _⟩ | ⟨hin, _⟩
    · have hlt := hexpiring.mp hin
      omega
    · have hlt := hexpired.mp hin
      omega
  · intro hne
    refine ⟨?_, ?_, ?_⟩
    · rw [hexpiring, hexpired]
      rcases Nat.lt_or_gt_of_ne hne with hlt | hgt
      · exact Or.inr ⟨hlt, by omega⟩
      · exact Or.inl ⟨hgt, by omega⟩
    · intro hin
      have hlt := hexpiring.mp hin
      refine ⟨?_, maySelect_iff.mpr ⟨hactive, hlt⟩⟩
      rw [lineStatus, if_neg hkept, hcol, if_neg (by omega)]
    · intro hin
      have hlt := hexpired.mp hin
      refine ⟨?_, fun hsel => ?_⟩
      · rw [lineStatus, if_neg hkept, hcol, if_pos hlt]
      · have hgt := (maySelect_iff.mp hsel).2
        omega

/-- Every certificate that is not revoked and expires within the window is
listed by one of `--expiring` and `--expired`, the one its printed status and
`active_fp` say, exactly when none of them expires this second. -/
theorem listed_once_iff (db : Db) (now : Instant) (days : Int) :
    (∀ row ∈ db.certIndex, row.status ≠ .revoked → row.Near now days →
        ListedOnce db now days row) ↔
      ∀ row ∈ db.certIndex, row.status ≠ .revoked → row.notAfter ≠ now.seconds := by
  have hactive : ∀ row : CertRow, row.status ≠ .revoked → row.status = .active := by
    intro row hkept
    cases hstatus : row.status with
    | active => rfl
    | revoked => exact absurd hstatus hkept
  constructor
  · intro h row hrow hkept heq
    have hnear : row.Near now days := by
      constructor
      · rw [heq]
        omega
      · omega
    exact (listedOnce_iff hrow (hactive row hkept) hnear).mp (h row hrow hkept hnear) heq
  · intro h row hrow hkept hnear
    exact (listedOnce_iff hrow (hactive row hkept) hnear).mpr (h row hrow hkept)

/-- An index with one certificate, good until second 2000. -/
def lastSecond : Db :=
  { sampleStore.db with
    certIndex := [indexRow ⟨[0x60], "a.ca", "CA E1", 1000, 2000, 9, 2, 9, 2⟩ (.ee .server) "tls"] }

/-- In the second in which it expires neither filter lists it; its status would
be printed as active, and `active_fp` does not select it any more. -/
theorem unlisted_in_last_second :
    ∃ row ∈ lastSecond.certIndex,
      row.status ≠ .revoked ∧ row.Near ⟨2000, by decide⟩ 30 ∧
      row ∉ selectRows lastSecond .expiring 30 2000 ∧
      row ∉ selectRows lastSecond .expired 30 2000 ∧
      lineStatus 2000 row = "active" ∧ ¬ MaySelect lastSecond 2000 row ∧
      ¬ ListedOnce lastSecond ⟨2000, by decide⟩ 30 row := by
  refine ⟨_, List.mem_cons_self, by decide, ⟨by decide, by decide⟩, ?_, ?_, by decide, ?_, ?_⟩
  · rw [mem_selectRows]
    decide
  · rw [mem_selectRows]
    decide
  · rw [maySelect_iff]
    decide
  · intro h
    rcases h.once with ⟨hin, _⟩ | ⟨hin, _⟩
    · rw [mem_selectRows] at hin
      revert hin
      decide
    · rw [mem_selectRows] at hin
      revert hin
      decide

end Expiry

end Ca
end Yca
