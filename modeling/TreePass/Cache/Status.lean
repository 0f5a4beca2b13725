import Mathlib.Algebra.Order.Ring.Nat
import Mathlib.Tactic.Common

/-!
# The status word of a cache entry

`treepass_entry.status` packs six flags (bits 0-5), a three-bit clock (bits 6-8) and 23 bits
that nothing is meant to touch.  This file has the constants, the effect of every atomic
operation the cache performs on the word, and the three fields each of them reads and writes.

* `flagBits` is the word below the clock, `clockOf` the clock as the source computes it and
  `upperBits` everything above the clock.
* Or-ing and and-ing with flags touches only `flagBits`.
* Adding or subtracting `tpClockOne` never touches `flagBits`; whether it stays inside the
  clock depends on the clock it meets, not on the clock its caller has read before.
-/

namespace TreePass
namespace Cache

/-- `entry_status`: the 32-bit word the flags and the clock share. -/
abbrev EntryStatus := BitVec 32

def tpFree : EntryStatus := 1#32 <<< 0
def tpClean : EntryStatus := 1#32 <<< 1
def tpWriteback : EntryStatus := 1#32 <<< 2
def tpLoading : EntryStatus := 1#32 <<< 3
def tpWritelocked : EntryStatus := 1#32 <<< 4
def tpClaimed : EntryStatus := 1#32 <<< 5

def tpClockShift : Nat := 6
def tpClockBits : Nat := 3
/-- Largest clock value, `(1 << TP_CLOCK_BITS) - 1`. -/
def tpClockMax : EntryStatus := (1#32 <<< tpClockBits) - 1#32
def tpClockMask : EntryStatus := tpClockMax <<< tpClockShift
def tpClockOne : EntryStatus := 1#32 <<< tpClockShift

/-- `TP_FREE_STATUS`. -/
def tpFreeStatus : EntryStatus := tpFree
/-- `TP_EVICTABLE_STATUS`: clean, unlocked, clock 0. -/
def tpEvictableStatus : EntryStatus := tpClean
/-- `TP_LOCKED_EVICTABLE_STATUS`: an evictable page that the evictor has locked. -/
def tpLockedEvictableStatus : EntryStatus := tpClean ||| tpClaimed ||| tpWritelocked
/-- `TP_ALLOC_STATUS`: newly allocated, dirty and write locked. -/
def tpAllocStatus : EntryStatus := tpWritelocked ||| tpClaimed
/-- `TP_READ_LOADING_STATUS`: clean and being read from disk. -/
def tpReadLoadingStatus : EntryStatus := tpClean ||| tpLoading
/-- `TP_CLEANABLE_BASE_MASK`: the flags that forbid writeback. -/
def tpCleanableBaseMask : EntryStatus :=
  tpFree ||| tpClean ||| tpWriteback ||| tpLoading ||| tpWritelocked ||| tpClaimed

/-- The six flags a caller of `treepass_set_flag` or `treepass_clear_flag` may name. -/
inductive Flag where
  | free
  | clean
  | writeback
  | loading
  | writelocked
  | claimed
  deriving DecidableEq, Repr

def Flag.mask : Flag → EntryStatus
  | .free => tpFree
  | .clean => tpClean
  | .writeback => tpWriteback
  | .loading => tpLoading
  | .writelocked => tpWritelocked
  | .claimed => tpClaimed

/-- Effect of `treepass_set_flag` on the word (`__sync_fetch_and_or`). -/
def setFlag (status flag : EntryStatus) : EntryStatus := status ||| flag

/-- Effect of `treepass_clear_flag` on the word (`__sync_fetch_and_and` with the complement). -/
def clearFlag (status flag : EntryStatus) : EntryStatus := status &&& ~~~flag

/-- `treepass_test_flag`: a nonzero result means the flag is set. -/
def testFlag (status flag : EntryStatus) : Bool := flag &&& status != 0#32

/-- `treepass_get_clock`: `(status >> TP_CLOCK_SHIFT) & TP_CLOCK_MAX`. -/
def clockOf (status : EntryStatus) : EntryStatus := (status >>> tpClockShift) &&& tpClockMax

def flagBits (status : EntryStatus) : Nat := status.toNat % 2 ^ tpClockShift

def upperBits (status : EntryStatus) : Nat := status.toNat / 2 ^ (tpClockShift + tpClockBits)

/-- The word the compare-and-exchange of `treepass_set_clock` tries to install. -/
def withClock (status value : EntryStatus) : EntryStatus :=
  let clamped := if value > tpClockMax then tpClockMax else value
  (status &&& ~~~tpClockMask) ||| (clamped <<< tpClockShift)

/-! ## Arithmetic of the three fields -/

theorem clockOf_toNat (status : EntryStatus) : (clockOf status).toNat = status.toNat / 64 % 8 := by
  have hmask : tpClockMax = BitVec.ofNat 32 (2 ^ 3 - 1) := by decide
  have hand := Nat.and_two_pow_sub_one_eq_mod (status.toNat / 64) 3
  simp only [clockOf, tpClockShift, hmask, BitVec.toNat_and, BitVec.toNat_ushiftRight,
    BitVec.toNat_ofNat, Nat.shiftRight_eq_div_pow]
  simpa using hand

theorem flagBits_eq (status : EntryStatus) : flagBits status = status.toNat % 64 := rfl

theorem upperBits_eq (status : EntryStatus) : upperBits status = status.toNat / 512 := rfl

theorem toNat_eq_fields (status : EntryStatus) :
    status.toNat = flagBits status + 64 * (clockOf status).toNat + 512 * upperBits status := by
  rw [clockOf_toNat, flagBits_eq, upperBits_eq]
  omega

theorem clockOf_le (status : EntryStatus) : (clockOf status).toNat ≤ 7 := by
  rw [clockOf_toNat]
  omega

theorem status_ext {s s' : EntryStatus} (hflags : flagBits s = flagBits s')
    (hclock : (clockOf s).toNat = (clockOf s').toNat) (hupper : upperBits s = upperBits s') :
    s = s' := by
  apply BitVec.eq_of_toNat_eq
  rw [toNat_eq_fields s, toNat_eq_fields s', hflags, hclock, hupper]

theorem clockOf_lt_max_iff (status : EntryStatus) :
    clockOf status < tpClockMax ↔ (clockOf status).toNat < 7 := by
  have hmax : tpClockMax.toNat = 7 := by decide
  rw [BitVec.lt_def, hmax]

theorem clockOf_eq_zero_iff (status : EntryStatus) :
    clockOf status = 0#32 ↔ (clockOf status).toNat = 0 := by
  constructor
  · intro h
    rw [h]
    rfl
  · intro h
    exact BitVec.eq_of_toNat_eq (by simpa using h)

/-! ## Adding and subtracting a tick -/

theorem toNat_add_one_tick (status : EntryStatus) :
    (status + tpClockOne).toNat = (status.toNat + 64) % 2 ^ 32 := by
  have hone : tpClockOne.toNat = 64 := by decide
  rw [BitVec.toNat_add, hone]

theorem toNat_sub_one_tick (status : EntryStatus) :
    (status - tpClockOne).toNat = (status.toNat + (2 ^ 32 - 64)) % 2 ^ 32 := by
  have hone : tpClockOne.toNat = 64 := by decide
  rw [BitVec.toNat_sub, hone, Nat.add_comm]

theorem flagBits_add (status : EntryStatus) : flagBits (status + tpClockOne) = flagBits status := by
  rw [flagBits_eq, flagBits_eq, toNat_add_one_tick]
  omega

theorem flagBits_sub (status : EntryStatus) : flagBits (status - tpClockOne) = flagBits status := by
  rw [flagBits_eq, flagBits_eq, toNat_sub_one_tick]
  omega

theorem upperBits_add_eq_zero_iff {status : EntryStatus} (h : upperBits status = 0) :
    upperBits (status + tpClockOne) = 0 ↔ (clockOf status).toNat < 7 := by
  rw [upperBits_eq] at h ⊢
  rw [toNat_add_one_tick, clockOf_toNat]
  omega

theorem upperBits_sub_eq_zero_iff {status : EntryStatus} (h : upperBits status = 0) :
    upperBits (status - tpClockOne) = 0 ↔ (clockOf status).toNat ≠ 0 := by
  rw [upperBits_eq] at h ⊢
  rw [toNat_sub_one_tick, clockOf_toNat]
  omega

theorem clockOf_sub {status : EntryStatus} (h : (clockOf status).toNat ≠ 0) :
    (clockOf (status - tpClockOne)).toNat = (clockOf status).toNat - 1 := by
  rw [clockOf_toNat] at h ⊢
  rw [clockOf_toNat, toNat_sub_one_tick]
  omega

/-! ## Setting and clearing flags -/

theorem Flag.mask_lt (f : Flag) : f.mask.toNat < 2 ^ 6 := by
  cases f <;> decide

private theorem shiftRight_setFlag (status : EntryStatus) (f : Flag) (n : Nat) (hn : 6 ≤ n) :
    setFlag status f.mask >>> n = status >>> n := by
  have hmask : f.mask >>> n = 0#32 := by
    apply BitVec.eq_of_toNat_eq
    have hlt : f.mask.toNat < 2 ^ n := Nat.lt_of_lt_of_le f.mask_lt (Nat.pow_le_pow_right (by decide) hn)
    simp [BitVec.toNat_ushiftRight, Nat.shiftRight_eq_div_pow, Nat.div_eq_of_lt hlt]
  rw [setFlag, BitVec.ushiftRight_or_distrib, hmask, BitVec.or_zero]

private theorem shiftRight_clearFlag (status : EntryStatus) (f : Flag) (n : Nat) (hn : 6 ≤ n) :
    clearFlag status f.mask >>> n = status >>> n := by
  ext i hi
  have hmask : f.mask.getLsbD (n + i) = false := by
    have hlt : f.mask.toNat < 2 ^ (n + i) :=
      Nat.lt_of_lt_of_le f.mask_lt (Nat.pow_le_pow_right (by decide) (by omega))
    simpa [BitVec.getLsbD] using Nat.testBit_lt_two_pow hlt
  simp only [clearFlag, BitVec.getElem_ushiftRight, BitVec.getLsbD_and, BitVec.getLsbD_not, hmask]
  by_cases hlt : n + i < 32
  · simp [hlt]
  · have : status.getLsbD (n + i) = false := BitVec.getLsbD_of_ge _ _ (by omega)
    simp [this]

private theorem upperBits_eq_shiftRight (status : EntryStatus) :
    upperBits status = (status >>> 9).toNat := by
  simp [upperBits_eq, BitVec.toNat_ushiftRight, Nat.shiftRight_eq_div_pow]

theorem upperBits_setFlag (status : EntryStatus) (f : Flag) :
    upperBits (setFlag status f.mask) = upperBits status := by
  rw [upperBits_eq_shiftRight, upperBits_eq_shiftRight, shiftRight_setFlag status f 9 (by decide)]

theorem upperBits_clearFlag (status : EntryStatus) (f : Flag) :
    upperBits (clearFlag status f.mask) = upperBits status := by
  rw [upperBits_eq_shiftRight, upperBits_eq_shiftRight, shiftRight_clearFlag status f 9 (by decide)]

/-! ## Installing a clock -/

private theorem clamped_toNat_le (value : EntryStatus) :
    (if value > tpClockMax then tpClockMax else value).toNat ≤ 7 := by
  have hmax : tpClockMax.toNat = 7 := by decide
  split
  · omega
  · rename_i h
    have := BitVec.not_lt.mp h
    rw [BitVec.le_def, hmax] at this
    exact this

private theorem getLsbD_not_clockMask (i : Nat) (hi : i < 32) :
    (~~~tpClockMask).getLsbD i = (decide (i < 6) || decide (9 ≤ i)) := by
  revert hi
  revert i
  decide

private theorem getLsbD_clock_shifted (clamped : EntryStatus) (hle : clamped.toNat ≤ 7) (i : Nat)
    (hi : i < 6 ∨ 9 ≤ i) : (clamped <<< tpClockShift).getLsbD i = false := by
  rw [tpClockShift, BitVec.getLsbD_shiftLeft]
  rcases hi with hlow | hhigh
  · simp [hlow]
  · have hlt : clamped.toNat < 2 ^ (i - 6) := by
      have := Nat.pow_le_pow_right (n := 2) (by decide) (by omega : 3 ≤ i - 6)
      omega
    have hbit : clamped.getLsbD (i - 6) = false := Nat.testBit_lt_two_pow hlt
    simp [hbit]

theorem getLsbD_withClock (status value : EntryStatus) (i : Nat) (hi : i < 6 ∨ 9 ≤ i) :
    (withClock status value).getLsbD i = status.getLsbD i := by
  have hclock := getLsbD_clock_shifted _ (clamped_toNat_le value) i hi
  by_cases hlt : i < 32
  · have hmask : (~~~tpClockMask).getLsbD i = true := by
      rw [getLsbD_not_clockMask i hlt]
      rcases hi with hlow | hhigh
      · simp [hlow]
      · simp [hhigh]
    simp only [withClock, BitVec.getLsbD_or, BitVec.getLsbD_and, hclock, hmask, Bool.and_true,
      Bool.or_false]
  · rw [BitVec.getLsbD_of_ge _ _ (by omega), BitVec.getLsbD_of_ge _ _ (by omega)]

theorem flagBits_withClock (status value : EntryStatus) :
    flagBits (withClock status value) = flagBits status := by
  have hlow : (withClock status value).setWidth 6 = status.setWidth 6 := by
    ext i hi
    have hbit := getLsbD_withClock status value i (Or.inl hi)
    simpa [BitVec.getElem_setWidth] using hbit
  have htoNat := congrArg BitVec.toNat hlow
  rw [BitVec.toNat_setWidth, BitVec.toNat_setWidth] at htoNat
  exact htoNat

theorem upperBits_withClock (status value : EntryStatus) :
    upperBits (withClock status value) = upperBits status := by
  have hhigh : withClock status value >>> 9 = status >>> 9 := by
    ext i hi
    have hbit := getLsbD_withClock status value (9 + i) (Or.inr (by omega))
    simpa using hbit
  rw [upperBits_eq_shiftRight, upperBits_eq_shiftRight, hhigh]

/-! ## Testing flags -/

def Flag.bit : Flag → Nat
  | .free => 0
  | .clean => 1
  | .writeback => 2
  | .loading => 3
  | .writelocked => 4
  | .claimed => 5

theorem Flag.mask_eq_twoPow (f : Flag) : f.mask = BitVec.twoPow 32 f.bit := by
  cases f <;> decide

theorem Flag.bit_lt (f : Flag) : f.bit < 6 := by
  cases f <;> decide

theorem testFlag_eq_getLsbD (status : EntryStatus) (f : Flag) :
    testFlag status f.mask = status.getLsbD f.bit := by
  have hbit := f.bit_lt
  have hone : BitVec.twoPow 32 f.bit ≠ 0#32 := by
    cases f <;> decide
  rw [testFlag, f.mask_eq_twoPow, BitVec.and_comm, BitVec.and_twoPow]
  cases hcase : status.getLsbD f.bit
  · simp
  · simpa using hone

private theorem mask_getLsbD (f g : Flag) : f.mask.getLsbD g.bit = decide (f = g) := by
  cases f <;> cases g <;> decide

@[simp] theorem testFlag_setFlag (status : EntryStatus) (f g : Flag) :
    testFlag (setFlag status f.mask) g.mask = (testFlag status g.mask || decide (f = g)) := by
  rw [testFlag_eq_getLsbD, testFlag_eq_getLsbD, setFlag, BitVec.getLsbD_or, mask_getLsbD]

@[simp] theorem testFlag_clearFlag (status : EntryStatus) (f g : Flag) :
    testFlag (clearFlag status f.mask) g.mask = (testFlag status g.mask && !decide (f = g)) := by
  have hbit : g.bit < 32 := Nat.lt_trans g.bit_lt (by decide)
  rw [testFlag_eq_getLsbD, testFlag_eq_getLsbD, clearFlag, BitVec.getLsbD_and, BitVec.getLsbD_not,
    mask_getLsbD]
  simp [hbit]

theorem testFlag_congr {s s' : EntryStatus} (h : flagBits s = flagBits s') (f : Flag) :
    testFlag s f.mask = testFlag s' f.mask := by
  have hlow : ∀ t : EntryStatus, t.getLsbD f.bit = (flagBits t).testBit f.bit := by
    intro t
    have hmod := Nat.testBit_mod_two_pow t.toNat 6 f.bit
    rw [flagBits, tpClockShift, hmod, decide_eq_true f.bit_lt, Bool.true_and]
    rfl
  rw [testFlag_eq_getLsbD, testFlag_eq_getLsbD, hlow, hlow, h]

@[simp] theorem testFlag_add (status : EntryStatus) (f : Flag) :
    testFlag (status + tpClockOne) f.mask = testFlag status f.mask :=
  testFlag_congr (flagBits_add status) f

@[simp] theorem testFlag_sub (status : EntryStatus) (f : Flag) :
    testFlag (status - tpClockOne) f.mask = testFlag status f.mask :=
  testFlag_congr (flagBits_sub status) f

theorem testFlag_freeStatus (f : Flag) : testFlag tpFreeStatus f.mask = decide (f = .free) := by
  cases f <;> decide

end Cache
end TreePass
