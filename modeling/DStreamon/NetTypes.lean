import Mathlib.Data.Rat.Floor

/-!
# Time formats

Microsecond, `timespec` and NTP times and what converts between them.  The `double` expressions are
exact fractions here, and only their casts truncate.
-/

namespace DStreamon.NetTypes

def k10_3 : ℕ := 1000

def k10_6 : ℕ := 1000000

def k10_9 : ℕ := 1000000000

/-- `2ULL << 32`, one bit more than the name says. -/
def k2_32 : ℕ := 2 * 2 ^ 32

/-- `timespec`, both fields a 64-bit `long`. -/
structure Timespec where
  tvSec : ℤ
  tvNsec : ℤ
deriving DecidableEq, Repr

/-- Seconds since the epoch and a fraction of a second. -/
structure Ntptime where
  sec : UInt32
  frac : UInt32
deriving DecidableEq, Repr

/-- `static_cast<uint32_t>` of a `double`: towards zero, and undefined where that does not fit. -/
def castUint32 (q : ℚ) : Option UInt32 :=
  if -1 < q ∧ q < 2 ^ 32 then some (UInt32.ofNat ⌊q⌋₊) else none

def timespecToUs (ts : Timespec) : UInt64 :=
  UInt64.ofInt ts.tvSec * UInt64.ofNat k10_6 + UInt64.ofInt ts.tvNsec / UInt64.ofNat k10_3

def usToTimespec (us : UInt64) : Timespec where
  tvSec := (us.toNat / k10_6 : ℕ)
  tvNsec := (us.toNat % k10_6 * k10_3 : ℕ)

def usToNtp (us : UInt64) : Option Ntptime := do
  let frac ← castUint32 (((us.toNat % k10_6 : ℕ) : ℚ) / k10_6 * k2_32)
  some { sec := UInt32.ofNat (us.toNat / k10_6), frac := frac }

def timespecToNtp (ts : Timespec) : Option Ntptime := do
  let frac ← castUint32 ((ts.tvNsec : ℚ) / k10_9 * k2_32)
  some { sec := UInt32.ofInt ts.tvSec, frac := frac }

def ntpToUs (nt : Ntptime) : Option UInt64 := do
  let us ← castUint32 ((nt.frac.toNat : ℚ) * k10_6 / k2_32)
  some (nt.sec.toUInt64 * UInt64.ofNat k10_6 + us.toUInt64)

def ntpToTimespec (nt : Ntptime) : Option Timespec := do
  let nsec ← castUint32 ((nt.frac.toNat : ℚ) * k10_9 / k2_32)
  some { tvSec := nt.sec.toNat, tvNsec := nsec.toNat }

/-- The fraction fits, and the time comes back to the microsecond before or after. -/
def UsRoundTrips (us : UInt64) : Prop :=
  ∃ nt back, usToNtp us = some nt ∧ ntpToUs nt = some back ∧
    |(back.toNat : ℤ) - us.toNat| ≤ 1

/-- The seconds come back, and the rest to the nanosecond before or after. -/
def TimespecRoundTrips (ts : Timespec) : Prop :=
  ∃ nt back, timespecToNtp ts = some nt ∧ ntpToTimespec nt = some back ∧
    back.tvSec = ts.tvSec ∧ |back.tvNsec - ts.tvNsec| ≤ 1

end DStreamon.NetTypes
