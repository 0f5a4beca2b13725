import TreePass.Lib.CountingSort
import Mathlib.Data.List.Sort

/-!
# The radix sort of the routing filter

`RadixSort` sorts 32-bit words byte by byte, from the lowest byte on. It counts all bytes in one
pass over the unsorted array, turns each row of counts into places, and then moves the words
between two arrays, one round for every byte of a fingerprint.

`radixSort_eq_some` says that the result is the sorted array, so none of the assertions of the
code fails on fingerprints that fit their size.
-/

namespace TreePass
namespace Filter

open Lib

/-- `MATRIX_ROWS`: the bytes of a word. -/
def matrixRows : Nat := 4

/-- `MATRIX_COLS`: the values of a byte. -/
def matrixCols : Nat := 256

/-- `((uint8 *)&u)[j]`: byte `j` of a word, the lowest first. -/
def byteAt (j u : Nat) : Nat := digit matrixCols j u

/-- Row `j` of the index matrix: the counts of byte `j`, converted to indices. -/
def indexRow (data : List Nat) (j : Nat) : Nat → Nat :=
  startsFrom (histogram (byteAt j) data) matrixCols

/-- The rounds of the sort. After each the source and the destination change places. -/
def radixRounds (data : List Nat) : Nat → Nat → List Nat → List Nat → Option (List Nat)
  | 0, _, src, _ => some src
  | rounds + 1, j, src, dst =>
      match scatterFrom (byteAt j) data.length (indexRow data j) src dst with
      | none => none
      | some dst' => radixRounds data rounds (j + 1) dst' src

/-- `RadixSort`: `none` where an assertion of the code fails. -/
def radixSort (data temp : List Nat) (fpSize : Nat) : Option (List Nat) :=
  let fpSize := if fpSize = 0 then 1 else fpSize
  let rounds := (fpSize + 7) / 8
  if rounds ≤ matrixRows ∧ ∀ u ∈ data, u < 2 ^ (8 * rounds) then
    radixRounds data rounds 0 data temp
  else none

theorem indexRow_of_perm {data src : List Nat} (hperm : src.Perm data) {j c : Nat}
    (hc : c < matrixCols) : indexRow data j c = keysBelow (byteAt j) src c := by
  unfold indexRow
  rw [startsFrom_histogram _ _ hc]
  exact (hperm.countP_eq _).symm

theorem radixRounds_spec (data : List Nat) (rounds : Nat) :
    ∀ (j : Nat) (src dst : List Nat), src.Perm data → dst.length = data.length →
      (src.Pairwise fun a b => a % matrixCols ^ j ≤ b % matrixCols ^ j) →
      ∃ result, radixRounds data rounds j src dst = some result ∧ result.Perm data ∧
        result.Pairwise fun a b =>
          a % matrixCols ^ (j + rounds) ≤ b % matrixCols ^ (j + rounds) := by
  induction rounds with
  | zero =>
      intro j src dst hperm _ hsorted
      exact ⟨src, rfl, hperm, hsorted⟩
  | succ rounds ih =>
      intro j src dst hperm hlength hsorted
      have hbytes : ∀ u ∈ src, byteAt j u < matrixCols := by
        intro u _
        exact Nat.mod_lt _ (by decide)
      have hscatter : scatterFrom (byteAt j) src.length (indexRow data j) src dst =
          some (buckets (byteAt j) matrixCols src) := by
        apply scatterFrom_eq_buckets (byteAt j) hbytes
        · intro c hc
          exact indexRow_of_perm hperm hc
        · rw [hlength, hperm.length_eq]
      rw [hperm.length_eq] at hscatter
      have hbuckets := perm_buckets (byteAt j) hbytes
      obtain ⟨result, hrun, hresult, hpair⟩ := ih (j + 1) (buckets (byteAt j) matrixCols src) src
        (hbuckets.trans hperm) hperm.length_eq (pairwise_mod_buckets hsorted)
      refine ⟨result, ?_, hresult, ?_⟩
      · unfold radixRounds
        rw [hscatter]
        exact hrun
      · rw [show j + (rounds + 1) = j + 1 + rounds by omega]
        exact hpair

/-- **The radix sort sorts**: there is one sorted array with the same words, and the code
returns it. -/
theorem radixSort_eq_some {data temp sorted : List Nat} {fpSize : Nat} (hsize : fpSize ≤ 32)
    (hdata : ∀ u ∈ data, u < 2 ^ fpSize) (htemp : temp.length = data.length)
    (hperm : sorted.Perm data) (hsorted : sorted.Pairwise (· ≤ ·)) :
    radixSort data temp fpSize = some sorted := by
  unfold radixSort
  have hfits : ∀ u ∈ data, u < 2 ^ (8 * (((if fpSize = 0 then 1 else fpSize) + 7) / 8)) := by
    intro u hu
    apply Nat.lt_of_lt_of_le (hdata u hu)
    apply Nat.pow_le_pow_right (by decide)
    split <;> omega
  rw [if_pos ⟨by unfold matrixRows; split <;> omega, hfits⟩]
  obtain ⟨result, hrun, hresult, hpair⟩ := radixRounds_spec data
    (((if fpSize = 0 then 1 else fpSize) + 7) / 8) 0 data temp (List.Perm.refl _) htemp
    (by simp [Nat.mod_one, List.pairwise_iff_forall_sublist])
  have hword : ∀ u ∈ result,
      u % matrixCols ^ (0 + ((if fpSize = 0 then 1 else fpSize) + 7) / 8) = u := by
    intro u hu
    apply Nat.mod_eq_of_lt
    have hlt := hfits u (hresult.mem_iff.mp hu)
    rwa [Nat.zero_add, show matrixCols = 2 ^ 8 from rfl, ← Nat.pow_mul]
  have hordered : result.Pairwise (· ≤ ·) := by
    apply hpair.imp_of_mem
    intro a b ha hb hab
    rwa [hword a ha, hword b hb] at hab
  rw [hrun]
  congr 1
  exact (hresult.trans hperm.symm).eq_of_pairwise (fun a b _ _ => Nat.le_antisymm) hordered hsorted

end Filter
end TreePass
