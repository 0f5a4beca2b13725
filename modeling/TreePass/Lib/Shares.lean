import Mathlib.Algebra.Order.Ring.Nat
import Mathlib.Data.List.Basic
import Mathlib.Tactic.Ring

/-!
# Cutting a list into even shares

`n` things are cut into `m` shares at the places `i * n / m`.  The shares are consecutive; if `m` is
the least number of shares of at most `f` things, none is empty and none is larger than `f`.

* `sharesFor n f` is that number of shares.
* `share_lt_succ` and `share_succ_le` are the bounds of one share.
* `flatMap_segments`: the segments of a list between increasing places give the list back.
-/

namespace TreePass
namespace Lib

/-! ## Places -/

/-- The place at which share `i` of `m` begins. -/
def share (n m i : Nat) : Nat := i * n / m

/-- The least number of shares of at most `f` things. -/
def sharesFor (n f : Nat) : Nat := (n + f - 1) / f

section

variable {n m f i : Nat}

theorem share_zero (n m : Nat) : share n m 0 = 0 := by
  rw [share, Nat.zero_mul, Nat.zero_div]

theorem share_self (hm : 0 < m) : share n m m = n := Nat.mul_div_cancel_left n hm

theorem sharesFor_pos (hn : 0 < n) (hf : 0 < f) : 0 < sharesFor n f :=
  Nat.div_pos (by omega) hf

theorem le_sharesFor_mul (hf : 0 < f) : n ≤ sharesFor n f * f := by
  have hdiv := Nat.div_add_mod (n + f - 1) f
  have hmod := Nat.mod_lt (n + f - 1) hf
  rw [Nat.mul_comm] at hdiv
  unfold sharesFor
  omega

theorem sharesFor_le (hn : 0 < n) (hf : 0 < f) : sharesFor n f ≤ n := by
  refine Nat.div_le_of_le_mul ?_
  obtain ⟨n, rfl⟩ : ∃ k, n = k + 1 := ⟨n - 1, by omega⟩
  obtain ⟨f, rfl⟩ : ∃ k, f = k + 1 := ⟨f - 1, by omega⟩
  calc n + 1 + (f + 1) - 1 = n + f + 1 := by omega
    _ ≤ n + f + 1 + f * n := Nat.le_add_right _ _
    _ = (f + 1) * (n + 1) := by ring

theorem sharesFor_lt (hn : 2 ≤ n) (hf : 2 ≤ f) : sharesFor n f < n := by
  refine (Nat.div_lt_iff_lt_mul (by omega)).mpr ?_
  calc n + f - 1 < n + f := by omega
    _ ≤ n * f := by
      obtain ⟨n, rfl⟩ : ∃ k, n = k + 2 := ⟨n - 2, by omega⟩
      obtain ⟨f, rfl⟩ : ∃ k, f = k + 2 := ⟨f - 2, by omega⟩
      calc n + 2 + (f + 2) = n + f + 4 := by omega
        _ ≤ n * f + 2 * n + 2 * f + 4 := by omega
        _ = (n + 2) * (f + 2) := by ring

theorem two_mul_sharesFor_le (hf : 2 ≤ f) : 2 * sharesFor n f ≤ n + 1 := by
  have hle : sharesFor n f ≤ sharesFor n 2 := by
    refine (Nat.div_le_iff_le_mul (by omega)).mpr ?_
    have htwo : n ≤ sharesFor n 2 * 2 := le_sharesFor_mul (by omega)
    have hmul : sharesFor n 2 * 2 ≤ sharesFor n 2 * f := Nat.mul_le_mul_left _ hf
    omega
  have htwo : sharesFor n 2 = (n + 2 - 1) / 2 := rfl
  omega

theorem share_le_succ (n m i : Nat) : share n m i ≤ share n m (i + 1) :=
  Nat.div_le_div_right (Nat.mul_le_mul_right n (Nat.le_succ i))

theorem share_lt_succ (hm : 0 < m) (hle : m ≤ n) (i : Nat) : share n m i < share n m (i + 1) := by
  have hstep : i * n / m + 1 ≤ (i + 1) * n / m := by
    rw [← Nat.add_div_right _ hm]
    refine Nat.div_le_div_right ?_
    rw [Nat.add_mul, Nat.one_mul]
    exact Nat.add_le_add_left hle _
  exact hstep

theorem share_succ_le (hm : 0 < m) (hle : n ≤ m * f) (i : Nat) :
    share n m (i + 1) ≤ share n m i + f := by
  have hstep : (i + 1) * n / m ≤ i * n / m + f := by
    rw [← Nat.add_mul_div_left _ _ hm]
    refine Nat.div_le_div_right ?_
    rw [Nat.add_mul, Nat.one_mul]
    exact Nat.add_le_add_left hle _
  exact hstep

theorem share_le_of_le (n m : Nat) {i j : Nat} (h : i ≤ j) : share n m i ≤ share n m j :=
  Nat.div_le_div_right (Nat.mul_le_mul_right n h)

end

/-! ## Segments -/

section

variable {α β : Type*}

def segment (l : List α) (start stop : Nat) : List α := (l.drop start).take (stop - start)

theorem length_segment {l : List α} {start stop : Nat} (hstop : stop ≤ l.length) :
    (segment l start stop).length = stop - start := by
  rw [segment, List.length_take, List.length_drop]
  omega

theorem getElem?_segment {l : List α} {start stop j : Nat} (hj : start + j < stop) :
    (segment l start stop)[j]? = l[start + j]? := by
  rw [segment, List.getElem?_take_of_lt (by omega), List.getElem?_drop]

theorem segment_sublist (l : List α) (start stop : Nat) : (segment l start stop).Sublist l :=
  (List.take_sublist _ _).trans (List.drop_sublist _ _)

theorem map_segment (g : α → β) (l : List α) (start stop : Nat) :
    (segment l start stop).map g = segment (l.map g) start stop := by
  rw [segment, segment, List.map_take, List.map_drop]

theorem dropLast_segment {l : List α} {start stop : Nat} (hlt : start ≤ stop)
    (hstop : stop < l.length) : (segment l start (stop + 1)).dropLast = segment l start stop := by
  rw [List.dropLast_eq_take, length_segment (Nat.succ_le_of_lt hstop), segment, segment,
    List.take_take, Nat.min_eq_left (by omega)]
  rw [show stop + 1 - start - 1 = stop - start by omega]

theorem flatMap_segments (l : List α) (place : Nat → Nat) (hzero : place 0 = 0)
    (hmono : ∀ i, place i ≤ place (i + 1)) (m : Nat) :
    (List.range m).flatMap (fun i => segment l (place i) (place (i + 1))) = l.take (place m) := by
  induction m with
  | zero => rw [hzero, List.take_zero, List.range_zero, List.flatMap_nil]
  | succ m ih =>
      have hsplit : place (m + 1) = place m + (place (m + 1) - place m) := by
        have := hmono m
        omega
      rw [List.range_succ, List.flatMap_append, ih, List.flatMap_singleton, segment]
      conv_rhs => rw [hsplit, List.take_add]

end

end Lib
end TreePass
