import TreePass.Lib.Bitmap

/-!
# Walking the values of a lookup

A lookup in a routing filter returns a word with one bit for every branch that may have the key.
The trunk visits these branches from the newest to the oldest: it asks
`routing_filter_get_next_value` for the next lower one until there is none.

The mask for this is computed with `1 << last_value`, whose `1` is an `int`.  The language defines
the shift up to bit 30; what comes out of it beyond that is a parameter `shl` here.

* `walk` is the loop of the callers, `WalkOk` says that it visits every value once.
* `TestOk` says that `routing_filter_is_value_found` is right about a value.
* `found_values_iff`: both are right exactly as long as no shift leaves the `int`.
-/

namespace TreePass
namespace Filter

open Lib

/-! ## The functions -/

/-- `ROUTING_NOT_FOUND`. -/
def routingNotFound : Nat := 65535

/-- What `1 << n` is as an `int`, as far as the language says. -/
def ShiftsOne (shl : Nat → BitVec 32) : Prop := ∀ n < 31, shl n = 1#32 <<< n

/-- `routing_filter_get_next_value`. -/
def routingFilterGetNextValue (shl : Nat → BitVec 32) (foundValues : BitVec 64)
    (lastValue : Nat) : Nat :=
  let foundValues :=
    if lastValue ≠ routingNotFound then foundValues &&& (shl lastValue - 1#32).signExtend 64
    else foundValues
  if foundValues = 0#64 then routingNotFound else 63 - clz foundValues

/-- `routing_filter_is_value_found`. -/
def routingFilterIsValueFound (shl : Nat → BitVec 32) (foundValues : BitVec 64)
    (value : Nat) : Bool :=
  decide (foundValues &&& (shl value).signExtend 64 ≠ 0#64)

/-- The loop of `trunk_ondisk_bundle_merge_lookup`: the values that are visited, if it ends within
so many calls. -/
def visitValues (shl : Nat → BitVec 32) (foundValues : BitVec 64) : Nat → Nat → Option (List Nat)
  | 0, _ => none
  | fuel + 1, lastValue =>
      let idx := routingFilterGetNextValue shl foundValues lastValue
      if idx = routingNotFound then some []
      else (visitValues shl foundValues fuel idx).map fun visited => idx :: visited

/-- The whole loop.  A word has 64 bits, so the 65th call must be the last. -/
def walk (shl : Nat → BitVec 32) (foundValues : BitVec 64) : Option (List Nat) :=
  visitValues shl foundValues 65 routingNotFound

/-! ## What they are for -/

/-- The walk ends and visits the bits that are set, each once, from the highest down. -/
def WalkOk (shl : Nat → BitVec 32) (foundValues : BitVec 64) : Prop :=
  ∃ visited, walk shl foundValues = some visited ∧ visited.Pairwise (· > ·) ∧
    ∀ i, i ∈ visited ↔ foundValues.getLsbD i = true

def TestOk (shl : Nat → BitVec 32) (foundValues : BitVec 64) (value : Nat) : Prop :=
  routingFilterIsValueFound shl foundValues value = foundValues.getLsbD value

/-! ## The walk -/

theorem mask_getLsbD : ∀ n < 31, ∀ i < 64,
    ((1#32 <<< n - 1#32).signExtend 64).getLsbD i = decide (i < n) := by
  decide +kernel

theorem bit_getLsbD : ∀ n < 31, ∀ i < 64,
    ((1#32 <<< n).signExtend 64).getLsbD i = decide (i = n) := by
  decide +kernel

section Walk

variable {shl : Nat → BitVec 32} {foundValues : BitVec 64}

theorem nextValue_spec {lastValue n : Nat} {left : BitVec 64}
    (hleft : left = if lastValue ≠ routingNotFound then
      foundValues &&& (shl lastValue - 1#32).signExtend 64 else foundValues)
    (hbits : ∀ i, left.getLsbD i = (foundValues.getLsbD i && decide (i < n))) :
    (bitsBelow foundValues n = [] ∧
      routingFilterGetNextValue shl foundValues lastValue = routingNotFound) ∨
    ∃ t, t < n ∧ t < 64 ∧ foundValues.getLsbD t = true ∧
      routingFilterGetNextValue shl foundValues lastValue = t ∧
      bitsBelow foundValues n = t :: bitsBelow foundValues t := by
  unfold routingFilterGetNextValue
  rw [← hleft]
  by_cases hzero : left = 0#64
  · refine Or.inl ⟨?_, if_pos hzero⟩
    rw [List.eq_nil_iff_forall_not_mem]
    intro i hi
    obtain ⟨hlt, hbit⟩ := mem_bitsBelow.mp hi
    have hclear := hbits i
    rw [hzero, BitVec.getLsbD_zero, hbit, decide_eq_true hlt] at hclear
    cases hclear
  · obtain ⟨hlt, hbit, habove⟩ := clz_spec hzero
    have htop : 64 - 1 - clz left = 63 - clz left := rfl
    rw [htop] at hbit habove
    have hboth := hbits (63 - clz left)
    rw [hbit, eq_comm, Bool.and_eq_true, decide_eq_true_eq] at hboth
    refine Or.inr ⟨63 - clz left, hboth.2, by omega, hboth.1, if_neg hzero, ?_⟩
    refine bitsBelow_eq_cons hboth.2 hboth.1 fun i hi hin => ?_
    have hclear := hbits i
    rw [habove i hi, decide_eq_true hin, Bool.and_true] at hclear
    exact hclear.symm

theorem visitValues_below (hshl : ShiftsOne shl) (fuel : Nat) :
    ∀ n < 31, (bitsBelow foundValues n).length < fuel →
      visitValues shl foundValues fuel n = some (bitsBelow foundValues n) := by
  induction fuel with
  | zero => exact fun n _ hlen => absurd hlen (Nat.not_lt_zero _)
  | succ fuel ih =>
      intro n hn hlen
      have hne : n ≠ routingNotFound := by
        unfold routingNotFound
        omega
      have hbits : ∀ i, (foundValues &&& (shl n - 1#32).signExtend 64).getLsbD i =
          (foundValues.getLsbD i && decide (i < n)) := by
        intro i
        rw [BitVec.getLsbD_and, hshl n hn]
        by_cases hi : i < 64
        · rw [mask_getLsbD n hn i hi]
        · rw [BitVec.getLsbD_of_ge foundValues i (by omega), Bool.false_and, Bool.false_and]
      unfold visitValues
      rcases nextValue_spec (if_pos hne).symm hbits with ⟨hnil, hnext⟩ | ⟨t, htn, _, _, hnext, hcons⟩
      · rw [hnext, if_pos rfl, hnil]
      · rw [hnext]
        have ht : t ≠ routingNotFound := by
          unfold routingNotFound
          omega
        rw [hcons, List.length_cons] at hlen
        dsimp only
        rw [if_neg ht, ih t (by omega) (by omega), hcons]
        rfl

theorem firstValue_spec :
    (bitsBelow foundValues 64 = [] ∧
      routingFilterGetNextValue shl foundValues routingNotFound = routingNotFound) ∨
    ∃ t, t < 64 ∧ foundValues.getLsbD t = true ∧
      routingFilterGetNextValue shl foundValues routingNotFound = t ∧
      bitsBelow foundValues 64 = t :: bitsBelow foundValues t := by
  have hbits : ∀ i, foundValues.getLsbD i = (foundValues.getLsbD i && decide (i < 64)) := by
    intro i
    by_cases hi : i < 64
    · rw [decide_eq_true hi, Bool.and_true]
    · rw [BitVec.getLsbD_of_ge foundValues i (by omega), Bool.false_and]
  rcases @nextValue_spec shl foundValues _ _ _ (if_neg (not_not_intro rfl)).symm hbits with
    hnone | ⟨t, _, ht, hbit, hnext, hcons⟩
  · exact Or.inl hnone
  · exact Or.inr ⟨t, ht, hbit, hnext, hcons⟩

theorem walk_of_small (hshl : ShiftsOne shl)
    (hsmall : ∀ i, 31 ≤ i → foundValues.getLsbD i = false) :
    walk shl foundValues = some (bitsBelow foundValues 64) := by
  unfold walk visitValues
  rcases @firstValue_spec shl foundValues with ⟨hnil, hnext⟩ | ⟨t, _, hbit, hnext, hcons⟩
  · rw [hnext, if_pos rfl, hnil]
  · have ht : t < 31 := by
      by_contra hlarge
      rw [hsmall t (by omega)] at hbit
      cases hbit
    have hne : t ≠ routingNotFound := by
      unfold routingNotFound
      omega
    have hlen : (bitsBelow foundValues t).length < 64 :=
      Nat.lt_of_le_of_lt (length_bitsBelow_le foundValues t) (by omega)
    rw [hnext, if_neg hne, visitValues_below hshl 64 t ht hlen, hcons]
    rfl

theorem walkOk_of_small (hshl : ShiftsOne shl)
    (hsmall : ∀ i, 31 ≤ i → foundValues.getLsbD i = false) : WalkOk shl foundValues := by
  refine ⟨_, walk_of_small hshl hsmall, bitsBelow_sorted foundValues 64, fun i => ?_⟩
  rw [mem_bitsBelow]
  constructor
  · intro hi
    exact hi.2
  · intro hbit
    refine ⟨?_, hbit⟩
    by_contra hlarge
    rw [BitVec.getLsbD_of_ge foundValues i (by omega)] at hbit
    cases hbit

theorem visitValues_stuck {t : Nat} (ht : t < 64) (hmask : shl t = 0#32)
    (hnext : routingFilterGetNextValue shl foundValues routingNotFound = t) (fuel : Nat) :
    visitValues shl foundValues fuel t = none := by
  have hne : t ≠ routingNotFound := by
    unfold routingNotFound
    omega
  have hself : routingFilterGetNextValue shl foundValues t = t := by
    have hall : foundValues &&& (shl t - 1#32).signExtend 64 = foundValues := by
      rw [hmask]
      exact BitVec.and_allOnes
    unfold routingFilterGetNextValue at hnext ⊢
    rw [if_neg (not_not_intro rfl)] at hnext
    rw [if_pos hne, hall]
    exact hnext
  induction fuel with
  | zero => rfl
  | succ fuel ih =>
      unfold visitValues
      rw [hself, if_neg hne, ih]
      rfl

end Walk

/-- Shifts that leave the `int` give this. -/
def shiftsElse (beyond : BitVec 32) (n : Nat) : BitVec 32 := if n < 31 then 1#32 <<< n else beyond

theorem shiftsOne_else (beyond : BitVec 32) : ShiftsOne (shiftsElse beyond) :=
  fun _ hn => if_pos hn

theorem not_walkOk_of_large {foundValues : BitVec 64} {i : Nat} (hi : 31 ≤ i)
    (hbit : foundValues.getLsbD i = true) : ¬ WalkOk (shiftsElse 0#32) foundValues := by
  rintro ⟨visited, hok, -⟩
  have hmem : i ∈ bitsBelow foundValues 64 := by
    refine mem_bitsBelow.mpr ⟨?_, hbit⟩
    by_contra hlarge
    rw [BitVec.getLsbD_of_ge foundValues i (by omega)] at hbit
    cases hbit
  rcases @firstValue_spec (shiftsElse 0#32) foundValues with ⟨hnil, _⟩ | ⟨t, ht, _, hnext, hcons⟩
  · rw [hnil] at hmem
    cases hmem
  · have hle : i ≤ t := by
      rw [hcons, List.mem_cons, mem_bitsBelow] at hmem
      omega
    have hne : t ≠ routingNotFound := by
      unfold routingNotFound
      omega
    unfold walk visitValues at hok
    rw [hnext, if_neg hne, visitValues_stuck ht (if_neg (by omega)) hnext] at hok
    cases hok

/-! ## The test -/

theorem testOk_of_small {shl : Nat → BitVec 32} (hshl : ShiftsOne shl) (foundValues : BitVec 64)
    {value : Nat} (hvalue : value < 31) : TestOk shl foundValues value := by
  have hmask : (1#32 <<< value).signExtend 64 = BitVec.twoPow 64 value := by
    apply BitVec.eq_of_getLsbD_eq
    intro i hi
    rw [bit_getLsbD value hvalue i hi, BitVec.getLsbD_twoPow]
    by_cases hiv : i = value
    · simp [hiv, show value < 64 by omega]
    · simp [hiv, Ne.symm hiv]
  unfold TestOk routingFilterIsValueFound
  rw [hshl value hvalue, hmask, BitVec.and_twoPow]
  cases foundValues.getLsbD value with
  | false => simp
  | true =>
      have hne : BitVec.twoPow 64 value ≠ 0#64 := by
        intro hzero
        have hbit := congrArg (fun w : BitVec 64 => w.getLsbD value) hzero
        simp [show value < 64 by omega] at hbit
      simp [hne]

theorem testOk_zero (shl : Nat → BitVec 32) (value : Nat) : TestOk shl 0#64 value := by
  unfold TestOk routingFilterIsValueFound
  simp

theorem not_testOk_of_large {foundValues : BitVec 64} {value : Nat} (hvalue : 31 ≤ value)
    (hfound : foundValues ≠ 0#64) :
    ¬ TestOk (shiftsElse (if foundValues.getLsbD value then 0#32 else BitVec.allOnes 32))
      foundValues value := by
  unfold TestOk routingFilterIsValueFound shiftsElse
  rw [if_neg (by omega)]
  cases foundValues.getLsbD value with
  | true => simp
  | false =>
      have hall : (BitVec.allOnes 32).signExtend 64 = BitVec.allOnes 64 := by decide
      rw [if_neg Bool.false_ne_true, hall, BitVec.and_allOnes]
      simp [hfound]

/-- **When the walk and the test are right.**  Whatever the shift gives beyond the `int`, the walk
is right if and only if no bit from 31 on is set, and the test of a value if and only if the value
is below 31 (or nothing was found). -/
theorem found_values_iff (foundValues : BitVec 64) :
    ((∀ shl, ShiftsOne shl → WalkOk shl foundValues) ↔
      ∀ i, 31 ≤ i → foundValues.getLsbD i = false) ∧
    ∀ value < 64, (∀ shl, ShiftsOne shl → TestOk shl foundValues value) ↔
      value < 31 ∨ foundValues = 0#64 := by
  constructor
  · constructor
    · intro hok i hi
      by_contra hbit
      exact not_walkOk_of_large hi (Bool.not_eq_false _ ▸ hbit) (hok _ (shiftsOne_else _))
    · intro hsmall shl hshl
      exact walkOk_of_small hshl hsmall
  · intro value _
    constructor
    · intro hok
      by_contra hlarge
      obtain ⟨hvalue, hfound⟩ := not_or.mp hlarge
      exact not_testOk_of_large (by omega) hfound (hok _ (shiftsOne_else _))
    · rintro (hvalue | rfl) shl hshl
      · exact testOk_of_small hshl foundValues hvalue
      · exact testOk_zero shl value

/-- What a processor makes of it that takes the count of a shift modulo the width. -/
def shiftModulo (n : Nat) : BitVec 32 := 1#32 <<< (n % 32)

/-- With bits 20 and 40, the walk skips bit 20; with bit 20 only, value 52 is found. -/
theorem found_values_fail_large :
    ShiftsOne shiftModulo ∧
    walk shiftModulo (BitVec.twoPow 64 40 ||| BitVec.twoPow 64 20) = some [40] ∧
    ¬ WalkOk shiftModulo (BitVec.twoPow 64 40 ||| BitVec.twoPow 64 20) ∧
    ¬ TestOk shiftModulo (BitVec.twoPow 64 20) 52 := by
  have hwalk : walk shiftModulo (BitVec.twoPow 64 40 ||| BitVec.twoPow 64 20) = some [40] := by
    decide +kernel
  refine ⟨?_, hwalk, ?_, ?_⟩
  · unfold ShiftsOne
    decide +kernel
  · rintro ⟨visited, hvisited, _, hall⟩
    obtain rfl := Option.some.inj (hwalk.symm.trans hvisited)
    have hskipped := (hall 20).mpr (by decide)
    simp at hskipped
  · unfold TestOk
    decide +kernel

end Filter
end TreePass
