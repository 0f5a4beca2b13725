import TreePass.Lib.CompareExchange

/-!
# The byte of a filter index entry

An entry of a filter's index has the address of a block of remainders in its lower 56 bits.  The
byte above counts the lookups that went through the entry: `routing_filter_lookup_async` reads the
address and then counts, while other lookups do the same.

* `filterMetaCntInc` is what the loop around the compare-and-exchange wants to store.
* `filter_meta_no_lost_update`: in any interleaving, the address stays and no count is lost.
-/

namespace TreePass
namespace Filter
namespace IndexMeta

/-! ## The code -/

/-- `FILTER_META_SHIFT`. -/
def filterMetaShift : Nat := 56

/-- `FILTER_ADDR_MASK`. -/
def filterAddrMask : BitVec 64 := (1#64 <<< filterMetaShift) - 1

/-- `FILTER_META_SPECIAL`. -/
def filterMetaSpecial : BitVec 8 := 0x80

/-- `FILTER_META_CNT_MASK`. -/
def filterMetaCntMask : BitVec 8 := 0x7F

/-- `FILTER_ADDR`. -/
def filterAddr (entry : BitVec 64) : BitVec 64 := entry &&& filterAddrMask

/-- `filter_meta_load`. -/
def filterMetaLoad (entry : BitVec 64) : BitVec 8 := (entry >>> filterMetaShift).setWidth 8

def withMeta (entry : BitVec 64) (b : BitVec 8) : BitVec 64 :=
  (entry &&& filterAddrMask) ||| (b.setWidth 64 <<< filterMetaShift)

/-- The byte that `filter_meta_cnt_inc` stores over `b`. -/
def incremented (b : BitVec 8) : BitVec 8 :=
  let cnt := b &&& filterMetaCntMask
  -- A full count gives way to the flag.
  if cnt = filterMetaCntMask then filterMetaSpecial else (b &&& filterMetaSpecial) ||| (cnt + 1)

/-- `filter_meta_cnt_inc`. -/
def filterMetaCntInc (old : BitVec 64) : Option (BitVec 64) :=
  let b := filterMetaLoad old
  if b &&& filterMetaSpecial ≠ 0 then none else some (withMeta old (incremented b))

/-! ## The two parts of an entry -/

theorem filterAddrMask_getLsbD (i : Nat) : filterAddrMask.getLsbD i = decide (i < 56) := by
  by_cases hi : i < 64
  · revert i
    decide +kernel
  · rw [BitVec.getLsbD_of_ge _ _ (by omega), decide_eq_false (by omega)]

theorem filterAddr_getLsbD (entry : BitVec 64) (i : Nat) :
    (filterAddr entry).getLsbD i = (entry.getLsbD i && decide (i < 56)) := by
  rw [filterAddr, BitVec.getLsbD_and, filterAddrMask_getLsbD]

theorem withMeta_getLsbD (entry : BitVec 64) (b : BitVec 8) (i : Nat) (hi : i < 64) :
    (withMeta entry b).getLsbD i = if i < 56 then entry.getLsbD i else b.getLsbD (i - 56) := by
  rw [withMeta, BitVec.getLsbD_or, BitVec.getLsbD_and, filterAddrMask_getLsbD,
    BitVec.getLsbD_shiftLeft, BitVec.getLsbD_setWidth, filterMetaShift]
  by_cases hlow : i < 56 <;> simp [hlow, hi]
  omega

theorem filterAddr_withMeta (entry : BitVec 64) (b : BitVec 8) :
    filterAddr (withMeta entry b) = filterAddr entry := by
  refine BitVec.eq_of_getLsbD_eq fun i hi => ?_
  rw [filterAddr_getLsbD, filterAddr_getLsbD, withMeta_getLsbD _ _ _ hi]
  by_cases hlow : i < 56 <;> simp [hlow]

theorem filterMetaLoad_withMeta (entry : BitVec 64) (b : BitVec 8) :
    filterMetaLoad (withMeta entry b) = b := by
  refine BitVec.eq_of_getLsbD_eq fun i hi => ?_
  rw [filterMetaLoad, BitVec.getLsbD_setWidth, BitVec.getLsbD_ushiftRight, filterMetaShift,
    withMeta_getLsbD _ _ _ (by omega)]
  rw [if_neg (by omega), decide_eq_true hi, Bool.true_and, Nat.add_sub_cancel_left]

/-! ## Counting -/

private theorem special_iff : ∀ b : BitVec 8, b &&& filterMetaSpecial ≠ 0 ↔ 128 ≤ b.toNat := by
  decide +kernel

private theorem incremented_toNat : ∀ b : BitVec 8, b.toNat < 128 →
    (incremented b).toNat = b.toNat + 1 := by
  decide +kernel

theorem cntInc_spec (word : BitVec 64) :
    filterAddr ((filterMetaCntInc word).getD word) = filterAddr word ∧
      (filterMetaLoad ((filterMetaCntInc word).getD word)).toNat =
        max (filterMetaLoad word).toNat (min ((filterMetaLoad word).toNat + 1) 128) := by
  unfold filterMetaCntInc
  dsimp only
  by_cases hspecial : filterMetaLoad word &&& filterMetaSpecial ≠ 0
  · rw [if_pos hspecial, Option.getD_none]
    have hle := (special_iff _).mp hspecial
    exact ⟨rfl, by omega⟩
  · rw [if_neg hspecial, Option.getD_some, filterMetaLoad_withMeta]
    have hlt := Nat.lt_of_not_le fun hle => hspecial ((special_iff _).mpr hle)
    rw [incremented_toNat _ hlt]
    exact ⟨filterAddr_withMeta .., by omega⟩

section Runs

open Lib

variable {T : Type}

theorem counts_spec (order : List T) (word : BitVec 64) :
    filterAddr (order.foldl (Shared.alone fun _ => filterMetaCntInc) word) = filterAddr word ∧
      (filterMetaLoad (order.foldl (Shared.alone fun _ => filterMetaCntInc) word)).toNat =
        max (filterMetaLoad word).toNat
          (min ((filterMetaLoad word).toNat + order.length) 128) := by
  induction order generalizing word with
  | nil =>
      rw [List.foldl_nil, List.length_nil]
      exact ⟨rfl, by omega⟩
  | cons t order ih =>
      obtain ⟨haddr, hcount⟩ := cntInc_spec word
      rw [List.foldl_cons, List.length_cons, (ih _).1, (ih _).2, Shared.alone, haddr, hcount]
      exact ⟨rfl, by omega⟩

variable [DecidableEq T]

/-- An index entry and the counts of lookups on it, after some of their steps. -/
def countRun (entry : BitVec 64) (schedule : List T) : Shared T (BitVec 64) :=
  (Shared.start entry).run (fun _ => filterMetaCntInc) schedule

/-- **No count is lost and no address is touched.**  However the steps of the lookups that count on
an entry are interleaved, they behave as if one counted after the other, each once and in real time,
and a lookup that gets two steps in a row has counted.  Each finds the address that the filter was
built with; the count goes up to 127 and then gives way to `SPECIAL` for good. -/
theorem filter_meta_no_lost_update (entry : BitVec 64) (schedule later : List T) (t : T) :
    Linear (fun _ => filterMetaCntInc) entry (countRun entry schedule) ∧
      (countRun entry schedule).order <+: (countRun entry (schedule ++ later)).order ∧
      (countRun entry (schedule ++ [t, t])).pc t = .returned ∧
      filterAddr (countRun entry schedule).word = filterAddr entry ∧
      (filterMetaLoad (countRun entry schedule).word).toNat =
        max (filterMetaLoad entry).toNat
          (min ((filterMetaLoad entry).toNat + (countRun entry schedule).order.length) 128) := by
  have hlinear : Linear (fun _ => filterMetaCntInc) entry (countRun entry schedule) :=
    linear_start.run schedule
  refine ⟨hlinear, ?_, ?_, ?_⟩
  · rw [countRun, countRun, Shared.run, Shared.run, List.foldl_append]
    exact order_run _ later
  · rw [countRun, Shared.run, List.foldl_append]
    exact run_twice _ t
  · rw [hlinear.word_eq]
    exact counts_spec _ entry

end Runs

end IndexMeta
end Filter
end TreePass
