import Mathlib.Algebra.Group.Nat.Defs
import Mathlib.Data.List.Induction
import Mathlib.Logic.Function.Basic
import Mathlib.Tactic.Common

/-!
# Counting sort and radix sort

A pass of a counting sort scatters a list over a second one: every key has a place where its next
element goes, which starts behind all elements with smaller keys.

* `scatter` is the loop, `buckets` the stable result: `scatter_eq_buckets`.
* `startsFrom` are the running sums of a histogram, and `getD_startsFrom` that they are the right
  places to start.
* `pairwise_mod_buckets` is the step of a radix sort that begins with the lowest digit.
-/

namespace TreePass
namespace Lib

variable {α : Type*} (key : α → Nat)

/-! ## The stable result -/

/-- The elements by key, those of one key in the old order, for the keys below `m`. -/
def buckets (m : Nat) (l : List α) : List α :=
  (List.range m).flatMap fun c => l.filter fun a => decide (key a = c)

def keysBelow (l : List α) (c : Nat) : Nat := l.countP fun a => decide (key a < c)

def keyCount (l : List α) (c : Nat) : Nat := l.countP fun a => decide (key a = c)

theorem keysBelow_succ (l : List α) (c : Nat) :
    keysBelow key l (c + 1) = keysBelow key l c + keyCount key l c := by
  unfold keysBelow keyCount
  induction l with
  | nil => rfl
  | cons a l ih =>
      rw [List.countP_cons, List.countP_cons, List.countP_cons, ih]
      by_cases hlt : key a < c
      · simp [hlt, Nat.lt_succ_of_lt hlt, Nat.ne_of_lt hlt]
        omega
      · by_cases heq : key a = c
        · simp [heq]
          omega
        · simp [hlt, heq, show ¬ key a < c + 1 by omega]

theorem keysBelow_mono (l : List α) {c d : Nat} (h : c ≤ d) :
    keysBelow key l c ≤ keysBelow key l d := by
  induction h with
  | refl => exact Nat.le_refl _
  | step _ ih =>
      rw [keysBelow_succ]
      exact Nat.le_trans ih (Nat.le_add_right _ _)

theorem keysBelow_le_length (l : List α) (c : Nat) : keysBelow key l c ≤ l.length :=
  List.countP_le_length

theorem length_buckets (m : Nat) (l : List α) : (buckets key m l).length = keysBelow key l m := by
  induction m with
  | zero => simp [buckets, keysBelow]
  | succ m ih =>
      rw [keysBelow_succ, ← ih]
      simp [buckets, List.range_succ, keyCount, List.countP_eq_length_filter]

theorem mem_buckets {m : Nat} {l : List α} {a : α} :
    a ∈ buckets key m l ↔ a ∈ l ∧ key a < m := by
  simp [buckets, and_comm]

theorem exists_of_getElem?_buckets {m : Nat} {l : List α} {i : Nat} {a : α}
    (h : (buckets key m l)[i]? = some a) :
    ∃ c k, i = keysBelow key l c + k ∧ (l.filter fun a => decide (key a = c))[k]? = some a := by
  induction m with
  | zero => simp [buckets] at h
  | succ m ih =>
      have hsucc : buckets key (m + 1) l =
          buckets key m l ++ l.filter fun a => decide (key a = m) := by
        simp [buckets, List.range_succ]
      rw [hsucc] at h
      by_cases hi : i < (buckets key m l).length
      · rw [List.getElem?_append_left hi] at h
        exact ih h
      · have hle := Nat.le_of_not_lt hi
        rw [List.getElem?_append_right hle, length_buckets] at h
        rw [length_buckets] at hle
        exact ⟨m, i - keysBelow key l m, by omega, h⟩

theorem perm_buckets {m : Nat} {l : List α} (hkeys : ∀ a ∈ l, key a < m) :
    (buckets key m l).Perm l := by
  induction m generalizing l with
  | zero =>
      cases l with
      | nil => exact List.Perm.refl _
      | cons a l => exact absurd (hkeys a List.mem_cons_self) (Nat.not_lt_zero _)
  | succ m ih =>
      have hsplit : buckets key (m + 1) l =
          buckets key m (l.filter fun a => decide (key a ≠ m)) ++
            l.filter fun a => decide (key a = m) := by
        simp only [buckets, List.range_succ, List.flatMap_append, List.flatMap_singleton,
          List.filter_filter]
        congr 1
        rw [List.flatMap_def, List.flatMap_def]
        congr 1
        apply List.map_congr_left
        intro c hc
        have hlt := List.mem_range.mp hc
        apply List.filter_congr
        intro a _
        by_cases heq : key a = c
        · simp [heq, Nat.ne_of_lt hlt]
        · simp [heq]
      rw [hsplit]
      have hbelow : ∀ a ∈ l.filter fun a => decide (key a ≠ m), key a < m := by
        intro a ha
        have hmem := List.mem_filter.mp ha
        have hne := of_decide_eq_true hmem.2
        have hlt := hkeys a hmem.1
        omega
      apply ((ih hbelow).append_right _).trans
      have hperm := List.filter_append_perm (fun a => decide (key a ≠ m)) l
      simpa using hperm

theorem pairwise_buckets {r : α → α → Prop} {m : Nat} {l : List α} (hl : l.Pairwise r) :
    (buckets key m l).Pairwise fun a b => key a < key b ∨ (key a = key b ∧ r a b) := by
  induction m with
  | zero => simp [buckets]
  | succ m ih =>
      have hsucc : buckets key (m + 1) l =
          buckets key m l ++ l.filter fun a => decide (key a = m) := by
        simp [buckets, List.range_succ]
      rw [hsucc, List.pairwise_append]
      refine ⟨ih, ?_, ?_⟩
      · have hfilter := hl.filter fun a => decide (key a = m)
        apply hfilter.imp_of_mem
        intro a b ha hb hr
        have hka := of_decide_eq_true (List.mem_filter.mp ha).2
        have hkb := of_decide_eq_true (List.mem_filter.mp hb).2
        exact Or.inr ⟨hka.trans hkb.symm, hr⟩
      · intro a ha b hb
        have hka := ((mem_buckets key).mp ha).2
        have hkb := of_decide_eq_true (List.mem_filter.mp hb).2
        exact Or.inl (by omega)

/-! ## The scatter loop -/

/-- Puts every element at the place of its key and moves that place up by one. A place outside
the array stops the loop. -/
def scatterFrom (count : Nat) : (Nat → Nat) → List α → List α → Option (List α)
  | _, [], dst => some dst
  | next, a :: src, dst =>
      if next (key a) < count then
        scatterFrom count (Function.update next (key a) (next (key a) + 1)) src
          (dst.set (next (key a)) a)
      else none

/-- **Where the loop stands** after a part of the list: every place is behind the elements of
its key, and these are in the array in their order. -/
structure Scattered (m : Nat) (l done : List α) (next : Nat → Nat) (dst : List α) : Prop where
  length : dst.length = l.length
  next : ∀ c, c < m → next c = keysBelow key l c + keyCount key done c
  placed : ∀ c k, k < keyCount key done c →
    dst[keysBelow key l c + k]? = (done.filter fun a => decide (key a = c))[k]?

private theorem keyCount_concat (done : List α) (a : α) (c : Nat) :
    keyCount key (done ++ [a]) c = keyCount key done c + if key a = c then 1 else 0 := by
  unfold keyCount
  rw [List.countP_append]
  by_cases h : key a = c
  · simp [h]
  · simp [h]

theorem place_lt {l done src : List α} {a : α} (hl : l = done ++ a :: src) :
    keysBelow key l (key a) + keyCount key done (key a) < keysBelow key l (key a + 1) := by
  rw [keysBelow_succ]
  have hsplit : keyCount key l (key a) =
      keyCount key done (key a) + (keyCount key src (key a) + 1) := by
    unfold keyCount
    rw [hl, List.countP_append, List.countP_cons]
    simp
  omega

theorem Scattered.step {m : Nat} {l done src : List α} {next : Nat → Nat} {dst : List α} {a : α}
    (hl : l = done ++ a :: src) (hkey : key a < m) (h : Scattered key m l done next dst) :
    Scattered key m l (done ++ [a]) (Function.update next (key a) (next (key a) + 1))
      (dst.set (next (key a)) a) := by
  have hplace := place_lt key hl
  have hbound : keysBelow key l (key a + 1) ≤ l.length := keysBelow_le_length key l _
  have hnext := h.next (key a) hkey
  constructor
  · rw [List.length_set, h.length]
  · intro c hm
    rw [keyCount_concat]
    by_cases hc : key a = c
    · subst hc
      rw [Function.update_self, hnext, if_pos rfl]
      omega
    · rw [Function.update_of_ne (Ne.symm hc), h.next c hm, if_neg hc]
      omega
  · intro c k hk
    rw [keyCount_concat] at hk
    rw [List.filter_append]
    have hlen : (done.filter fun a => decide (key a = c)).length = keyCount key done c :=
      List.countP_eq_length_filter.symm
    by_cases hc : key a = c
    · subst hc
      rw [if_pos rfl] at hk
      by_cases hlast : k = keyCount key done (key a)
      · -- The element just placed.
        rw [hlast, hnext, List.getElem?_append_right (by omega), hlen]
        rw [List.getElem?_set_self (by rw [h.length]; omega)]
        simp
      · rw [List.getElem?_append_left (by omega), hnext]
        rw [List.getElem?_set_ne (by omega)]
        exact h.placed _ k (by omega)
    · rw [if_neg hc] at hk
      have hold := h.placed c k (by omega)
      -- The written place is in the range of another key.
      have hne : next (key a) ≠ keysBelow key l c + k := by
        rw [hnext]
        have hcount : keyCount key done c ≤ keyCount key l c := by
          unfold keyCount
          rw [hl, List.countP_append]
          exact Nat.le_add_right _ _
        have hsucc := keysBelow_succ key l c
        rcases Nat.lt_or_gt_of_ne hc with hlt | hgt
        · have hmono := keysBelow_mono key l (show key a + 1 ≤ c by omega)
          omega
        · have hmono := keysBelow_mono key l (show c + 1 ≤ key a by omega)
          omega
      rw [List.getElem?_set_ne hne, hold]
      rw [List.getElem?_append_left (by omega)]

theorem scatterFrom_eq {l : List α} {m : Nat} (hkeys : ∀ a ∈ l, key a < m) (src : List α) :
    ∀ (done : List α) (next : Nat → Nat) (dst : List α), l = done ++ src →
      Scattered key m l done next dst →
      scatterFrom key l.length next src dst = some (buckets key m l) := by
  induction src with
  | nil =>
      intro done next dst hl h
      rw [List.append_nil] at hl
      subst hl
      unfold scatterFrom
      have hlength : (buckets key m l).length = l.length := (perm_buckets key hkeys).length_eq
      congr 1
      apply List.ext_getElem?
      intro i
      by_cases hi : i < l.length
      · obtain ⟨a, ha⟩ : ∃ a, (buckets key m l)[i]? = some a :=
          ⟨_, List.getElem?_eq_getElem (by omega)⟩
        obtain ⟨c, k, rfl, hk⟩ := exists_of_getElem?_buckets key ha
        have hlt : k < keyCount key l c := by
          have hlen := (List.getElem?_eq_some_iff.mp hk).1
          rwa [← List.countP_eq_length_filter] at hlen
        rw [h.placed c k hlt, hk, ha]
      · rw [List.getElem?_eq_none (by rw [h.length]; omega), List.getElem?_eq_none (by omega)]
  | cons a src ih =>
      intro done next dst hl h
      have hplace := place_lt key hl
      have hbound : keysBelow key l (key a + 1) ≤ l.length := keysBelow_le_length key l _
      unfold scatterFrom
      have hkey : key a < m := hkeys a (by rw [hl]; simp)
      have hnext := h.next (key a) hkey
      rw [if_pos (by omega)]
      exact ih (done ++ [a]) _ _ (by rw [hl]; simp) (h.step key hl hkey)

/-- **The scatter loop of a counting sort** gives the buckets, and never leaves the array. -/
theorem scatterFrom_eq_buckets {l dst : List α} {m : Nat} {start : Nat → Nat}
    (hkeys : ∀ a ∈ l, key a < m) (hstart : ∀ c, c < m → start c = keysBelow key l c)
    (hlength : dst.length = l.length) :
    scatterFrom key l.length start l dst = some (buckets key m l) := by
  apply scatterFrom_eq key hkeys l [] _ dst rfl
  constructor
  · exact hlength
  · intro c hc
    simp [keyCount, hstart c hc]
  · intro c k hk
    simp [keyCount] at hk

/-! ## The places to start at -/

def histogram (l : List α) : Nat → Nat :=
  l.foldl (fun h a => Function.update h (key a) (h (key a) + 1)) fun _ => 0

theorem histogram_apply (l : List α) (c : Nat) : histogram key l c = keyCount key l c := by
  have hfrom : ∀ (l : List α) (h : Nat → Nat),
      l.foldl (fun h a => Function.update h (key a) (h (key a) + 1)) h c
        = h c + keyCount key l c := by
    intro l
    induction l with
    | nil => simp [keyCount]
    | cons a l ih =>
        intro h
        rw [List.foldl_cons, ih, keyCount, keyCount, List.countP_cons]
        by_cases hc : key a = c
        · subst hc
          simp
          omega
        · simp [hc, Function.update_of_ne (Ne.symm hc)]
  unfold histogram
  rw [hfrom, Nat.zero_add]

/-- Turns the counts of the keys below `cols` into running sums, in place. -/
def startsFrom (h : Nat → Nat) (cols : Nat) : Nat → Nat :=
  ((List.range cols).foldl (fun s i => (Function.update s.1 i s.2, s.2 + s.1 i)) (h, 0)).1

theorem startsFrom_histogram (l : List α) {cols c : Nat} (hc : c < cols) :
    startsFrom (histogram key l) cols c = keysBelow key l c := by
  have hfold : ∀ n, (List.range n).foldl (fun s i => (Function.update s.1 i s.2, s.2 + s.1 i))
      (histogram key l, 0) =
        (fun c => if c < n then keysBelow key l c else histogram key l c, keysBelow key l n) := by
    intro n
    induction n with
    | zero => simp [keysBelow]
    | succ n ih =>
        rw [List.range_succ, List.foldl_append, ih]
        apply Prod.ext
        · funext c
          by_cases hcn : c = n
          · simp [hcn]
          · have hiff : c < n ↔ c < n + 1 := by omega
            simp [Function.update_of_ne hcn, hiff]
        · simp [keysBelow_succ, histogram_apply]
  unfold startsFrom
  rw [hfold]
  exact if_pos hc

/-! ## Sorting digit by digit -/

/-- The digit of a number with `j` digits behind it. -/
def digit (base j a : Nat) : Nat := a / base ^ j % base

theorem pairwise_mod_buckets {base j : Nat} {l : List Nat}
    (hl : l.Pairwise fun a b => a % base ^ j ≤ b % base ^ j) :
    (buckets (digit base j) base l).Pairwise fun a b =>
      a % base ^ (j + 1) ≤ b % base ^ (j + 1) := by
  apply (pairwise_buckets (digit base j) hl).imp
  intro a b hab
  have hsplit : ∀ x, x % base ^ (j + 1) = x % base ^ j + base ^ j * digit base j x := by
    intro x
    rw [digit, Nat.pow_succ, Nat.mod_mul]
  rw [hsplit a, hsplit b]
  rcases hab with hlt | ⟨heq, hle⟩
  · have hpos : 0 < base ^ j := by
      rcases Nat.eq_zero_or_pos base with h0 | h0
      · subst h0
        simp [digit] at hlt ⊢
        rcases Nat.eq_zero_or_pos j with hj | hj
        · simp [hj]
        · simp [Nat.zero_pow hj] at hlt
      · exact Nat.pow_pos h0
    have hmod := Nat.mod_lt a hpos
    have hmul : base ^ j * (digit base j a + 1) ≤ base ^ j * digit base j b :=
      Nat.mul_le_mul_left _ hlt
    calc a % base ^ j + base ^ j * digit base j a
        ≤ base ^ j * (digit base j a + 1) := by
          rw [Nat.mul_add, Nat.mul_one]
          omega
      _ ≤ base ^ j * digit base j b := hmul
      _ ≤ b % base ^ j + base ^ j * digit base j b := Nat.le_add_left _ _
  · rw [heq]
    omega

end Lib
end TreePass
