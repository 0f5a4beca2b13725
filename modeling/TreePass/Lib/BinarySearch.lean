import Mathlib.Tactic.Common

/-!
# Binary search for an insertion point

The BSD form of binary search over `nmemb` probes, none of which answers "equal": a probe is
before the sought item (`true`) or after it (`false`).  Besides the position, the search keeps
two flags: whether a probe before the item, and whether a probe after it, was marked.  If marks
only grow towards the insertion point, the flags tell about its two neighbours exactly.

* `bsearch_eq` says that the position and the flags are exact.
* `bsearchReads_eq` says that the search asks for no probe outside the items.

The second form compares with three outcomes and stops as soon as it meets an equal item.
-/

namespace TreePass
namespace Lib

/-- The registers of the search: the interval `[base, base + lim)`, the last probe and its
answer, and the two flags. -/
structure BsearchState where
  base : Nat
  lim : Nat
  p : Nat
  before : Bool
  prevMark : Bool
  nextMark : Bool

/-- One turn of the loop; `before i` and `mark i` are the answers of probe `i`. -/
def bsearchStep (before mark : Nat → Bool) (s : BsearchState) : BsearchState :=
  let p := s.base + s.lim / 2
  if before p then
    { s with base := p + 1, lim := (s.lim - 1) / 2, p := p, before := true,
             prevMark := s.prevMark || mark p }
  else
    { s with lim := s.lim / 2, p := p, before := false, nextMark := s.nextMark || mark p }

/-- The loop, which halves `lim` until it is 0. -/
def bsearchLoop (before mark : Nat → Bool) : Nat → BsearchState → BsearchState
  | 0, s => s
  | fuel + 1, s => if s.lim = 0 then s else bsearchLoop before mark fuel (bsearchStep before mark s)

/-- Search `nmemb` items: the index of the last item before the sought one (-1 if there is
none), and the two flags. -/
def bsearch (before mark : Nat → Bool) (nmemb : Nat) : Int × Bool × Bool :=
  let s := bsearchLoop before mark nmemb ⟨0, nmemb, 0, false, false, false⟩
  ((s.p : Int) - (if s.before then 0 else 1), s.prevMark, s.nextMark)

section Correctness

variable {before mark : Nat → Bool} {nmemb idx : Nat}

/-- What the answers have to look like for an item that belongs at `idx`: exactly the first `idx`
probes are before it, and marks grow towards it from both sides. -/
structure BelongsAt (before mark : Nat → Bool) (nmemb idx : Nat) : Prop where
  le : idx ≤ nmemb
  before_iff : ∀ i, i < nmemb → (before i = true ↔ i < idx)
  mark_up : ∀ i j, i ≤ j → j < idx → mark i = true → mark j = true
  mark_down : ∀ i j, idx ≤ i → i ≤ j → j < nmemb → mark j = true → mark i = true

/-- The insertion point stays inside the interval, and the flags are the marks just outside it. -/
structure BsearchInv (before mark : Nat → Bool) (nmemb idx : Nat) (s : BsearchState) : Prop where
  base_le : s.base ≤ idx
  idx_le : idx ≤ s.base + s.lim
  le_nmemb : s.base + s.lim ≤ nmemb
  prev_iff : s.prevMark = true ↔ 0 < s.base ∧ mark (s.base - 1) = true
  next_iff : s.nextMark = true ↔ s.base + s.lim < nmemb ∧ mark (s.base + s.lim) = true
  /-- Once the interval is empty, the last probe was next to the insertion point. -/
  last : s.lim = 0 → 0 < nmemb → s.p + (if s.before then 1 else 0) = idx

private theorem bsearchInv_step (hbelongs : BelongsAt before mark nmemb idx) {s : BsearchState}
    (hinv : BsearchInv before mark nmemb idx s) (hlim : s.lim ≠ 0) :
    BsearchInv before mark nmemb idx (bsearchStep before mark s) := by
  obtain ⟨hbase, hidx, hn, hprev, hnext, -⟩ := hinv
  have hp : s.base + s.lim / 2 < nmemb := by omega
  rw [bsearchStep]
  by_cases hbefore : before (s.base + s.lim / 2) = true
  · have hlt := (hbelongs.before_iff _ hp).mp hbefore
    have hend : s.base + s.lim / 2 + 1 + (s.lim - 1) / 2 = s.base + s.lim := by omega
    simp only [hbefore, if_true]
    refine ⟨hlt, by simpa [hend] using hidx, by simpa [hend] using hn, ?_,
      by simpa [hend] using hnext, ?_⟩
    · -- An earlier mark lies before this probe, so this probe is marked as well.
      have hgrow : s.prevMark = true → mark (s.base + s.lim / 2) = true := fun h =>
        hbelongs.mark_up _ _ (by omega) hlt (hprev.mp h).2
      simpa using hgrow
    · intro hdone _
      simp only [if_true] at hdone ⊢
      omega
  · have hge : idx ≤ s.base + s.lim / 2 := by
      by_contra hcon
      exact hbefore ((hbelongs.before_iff _ hp).mpr (by omega))
    simp only [hbefore, Bool.false_eq_true, if_false]
    refine ⟨hbase, hge, Nat.le_of_lt hp, hprev, ?_, ?_⟩
    · have hgrow : s.nextMark = true → mark (s.base + s.lim / 2) = true := fun h =>
        hbelongs.mark_down _ _ hge (by omega) (hnext.mp h).1 (hnext.mp h).2
      simp only [Bool.or_eq_true]
      constructor
      · rintro (h | h)
        · exact ⟨hp, hgrow h⟩
        · exact ⟨hp, h⟩
      · rintro ⟨-, h⟩
        exact Or.inr h
    · intro hdone _
      simp only at hdone
      simp only [Bool.false_eq_true, if_false]
      omega

private theorem bsearchInv_loop (hbelongs : BelongsAt before mark nmemb idx) (fuel : Nat) :
    ∀ s : BsearchState, s.lim ≤ fuel → BsearchInv before mark nmemb idx s →
      BsearchInv before mark nmemb idx (bsearchLoop before mark fuel s) ∧
        (bsearchLoop before mark fuel s).lim = 0 := by
  induction fuel with
  | zero =>
      intro s hle hinv
      exact ⟨hinv, by rw [bsearchLoop]; omega⟩
  | succ fuel ih =>
      intro s hle hinv
      rw [bsearchLoop]
      by_cases hlim : s.lim = 0
      · rw [if_pos hlim]
        exact ⟨hinv, hlim⟩
      · rw [if_neg hlim]
        apply ih _ _ (bsearchInv_step hbelongs hinv hlim)
        simp only [bsearchStep]
        split <;> simp only <;> omega

/-- **The search is exact.**  For an item that belongs at `idx` among at least one other, the
search returns `idx - 1`, and its flags are the marks of the items at `idx - 1` and `idx`. -/
theorem bsearch_eq (hbelongs : BelongsAt before mark nmemb idx) (hpos : 0 < nmemb) :
    bsearch before mark nmemb =
      ((idx : Int) - 1, decide (0 < idx) && mark (idx - 1), decide (idx < nmemb) && mark idx) := by
  have hstart : BsearchInv before mark nmemb idx ⟨0, nmemb, 0, false, false, false⟩ := by
    refine ⟨Nat.zero_le _, ?_, ?_, ?_, ?_, ?_⟩
    · simpa using hbelongs.le
    · simp
    · simp
    · simp
    · intro h _
      simp only at h
      omega
  obtain ⟨hinv, hlim⟩ := bsearchInv_loop hbelongs nmemb _ (Nat.le_refl _) hstart
  rw [bsearch]
  generalize bsearchLoop before mark nmemb ⟨0, nmemb, 0, false, false, false⟩ = s at hinv hlim
  have hidx : s.base = idx := by
    have := hinv.base_le
    have := hinv.idx_le
    omega
  have hlast := hinv.last hlim hpos
  have hprev := hinv.prev_iff
  have hnext := hinv.next_iff
  rw [hidx] at hprev
  rw [hlim, Nat.add_zero, hidx] at hnext
  refine Prod.ext ?_ (Prod.ext ?_ ?_)
  · simp only
    cases hb : s.before <;> simp only [hb] at hlast ⊢ <;> simp at hlast ⊢ <;> omega
  · rw [Bool.eq_iff_iff, hprev]
    simp
  · rw [Bool.eq_iff_iff, hnext]
    simp

end Correctness

/-! ## What the search reads -/

/-- The loop on probes that may be missing: a missing probe has no result, and neither has a loop
that does not end. -/
def bsearchReadsLoop (probe : Nat → Option (Bool × Bool)) :
    Nat → BsearchState → Option BsearchState
  | 0, s => if s.lim = 0 then some s else none
  | fuel + 1, s =>
      if s.lim = 0 then some s
      else (probe (s.base + s.lim / 2)).bind fun answer =>
        bsearchReadsLoop probe fuel (bsearchStep (fun _ => answer.1) (fun _ => answer.2) s)

/-- `bsearch` on probes that may be missing. -/
def bsearchReads (probe : Nat → Option (Bool × Bool)) (nmemb : Nat) : Option (Int × Bool × Bool) :=
  (bsearchReadsLoop probe nmemb ⟨0, nmemb, 0, false, false, false⟩).map fun s =>
    ((s.p : Int) - (if s.before then 0 else 1), s.prevMark, s.nextMark)

section Reads

variable {before mark : Nat → Bool} {probe : Nat → Option (Bool × Bool)} {nmemb : Nat}

private theorem bsearchStep_shrinks {s : BsearchState} (hlim : s.lim ≠ 0) :
    (bsearchStep before mark s).lim < s.lim ∧
      (bsearchStep before mark s).base + (bsearchStep before mark s).lim ≤ s.base + s.lim := by
  simp only [bsearchStep]
  split
  · dsimp only
    omega
  · dsimp only
    omega

private theorem bsearchReadsLoop_eq
    (hprobe : ∀ i, i < nmemb → probe i = some (before i, mark i)) (fuel : Nat) :
    ∀ s : BsearchState, s.lim ≤ fuel → s.base + s.lim ≤ nmemb →
      bsearchReadsLoop probe fuel s = some (bsearchLoop before mark fuel s) := by
  induction fuel with
  | zero =>
      intro s hle _
      unfold bsearchReadsLoop bsearchLoop
      rw [if_pos (by omega)]
  | succ fuel ih =>
      intro s hle hinside
      unfold bsearchReadsLoop bsearchLoop
      by_cases hlim : s.lim = 0
      · rw [if_pos hlim, if_pos hlim]
      · rw [if_neg hlim, if_neg hlim, hprobe _ (by omega)]
        -- The step looks at the one probe only.
        have hstep : bsearchStep (fun _ => before (s.base + s.lim / 2))
            (fun _ => mark (s.base + s.lim / 2)) s = bsearchStep before mark s := rfl
        change bsearchReadsLoop probe fuel (bsearchStep _ _ s) = _
        rw [hstep]
        have hshrinks := @bsearchStep_shrinks before mark s hlim
        exact ih _ (by omega) (by omega)

/-- **The search stays inside.**  Whatever the probes answer, only those of the items are asked
for, and the search ends. -/
theorem bsearchReads_eq (hprobe : ∀ i, i < nmemb → probe i = some (before i, mark i)) :
    bsearchReads probe nmemb = some (bsearch before mark nmemb) := by
  unfold bsearchReads bsearch
  rw [bsearchReadsLoop_eq hprobe nmemb _ (Nat.le_refl _) (by simp)]
  rfl

end Reads

/-! ## The form that stops at an equal item -/

/-- The loop on the interval `[lo, hi)`; `compare i` compares item `i` with the sought one. -/
def searchLoop (compare : Nat → Ordering) : Nat → Nat → Nat → Int × Bool
  | 0, lo, _ => ((lo : Int) - 1, false)
  | fuel + 1, lo, hi =>
      if lo < hi then
        let mid := (lo + hi) / 2
        match compare mid with
        | .eq => ((mid : Int), true)
        | .lt => searchLoop compare fuel (mid + 1) hi
        | .gt => searchLoop compare fuel lo mid
      else ((lo : Int) - 1, false)

/-- Search `n` items: the index of the last one that is not greater (-1 if there is none), and
whether it is equal. -/
def search (compare : Nat → Ordering) (n : Nat) : Int × Bool := searchLoop compare n 0 n

section StopsAtEqual

variable {compare : Nat → Ordering} {n below atMost : Nat}

/-- What the comparisons look like on strictly sorted items: the first `below` are less, the
first `atMost` are not greater, and at most one is equal. -/
structure SplitsAt (compare : Nat → Ordering) (n below atMost : Nat) : Prop where
  below_le : below ≤ atMost
  atMost_le : atMost ≤ below + 1
  atMost_le_n : atMost ≤ n
  lt_iff : ∀ i, i < n → (compare i = .lt ↔ i < below)
  gt_iff : ∀ i, i < n → (compare i = .gt ↔ atMost ≤ i)

private theorem searchLoop_eq (h : SplitsAt compare n below atMost) (fuel : Nat) :
    ∀ lo hi, lo ≤ below → atMost ≤ hi → hi ≤ n → hi ≤ lo + fuel →
      searchLoop compare fuel lo hi = ((atMost : Int) - 1, decide (below < atMost)) := by
  have hbelow := h.below_le
  have hatMost := h.atMost_le
  induction fuel with
  | zero =>
      intro lo hi hlo hhi _ hfuel
      have hend : atMost = lo ∧ below = lo := by omega
      simp [searchLoop, hend.1, hend.2]
  | succ fuel ih =>
      intro lo hi hlo hhi hn hfuel
      rw [searchLoop]
      by_cases hlt : lo < hi
      · rw [if_pos hlt]
        have hmid : (lo + hi) / 2 < n := by omega
        have hlt' := h.lt_iff _ hmid
        have hgt' := h.gt_iff _ hmid
        cases hcmp : compare ((lo + hi) / 2) with
        | lt =>
            rw [hcmp] at hlt'
            simp only [hcmp]
            exact ih _ _ (Nat.succ_le_of_lt (by simpa using hlt')) hhi hn (by omega)
        | gt =>
            rw [hcmp] at hgt'
            simp only [hcmp]
            exact ih _ _ hlo (by simpa using hgt') (by omega) (by omega)
        | eq =>
            -- Only item `below` can be equal, and then it is the last one not greater.
            simp only [hcmp, reduceCtorEq, false_iff] at hlt' hgt' ⊢
            refine Prod.ext ?_ ?_
            · simp only
              omega
            · simp only [Bool.true_eq, decide_eq_true_eq]
              omega
      · rw [if_neg hlt]
        have hend : atMost = lo ∧ below = lo := by omega
        simp [hend.1, hend.2]

theorem search_eq (h : SplitsAt compare n below atMost) :
    search compare n = ((atMost : Int) - 1, decide (below < atMost)) :=
  searchLoop_eq h n 0 n (Nat.zero_le _) h.atMost_le_n (Nat.le_refl _) (by omega)

private theorem searchLoop_bounds (fuel : Nat) : ∀ lo hi, lo ≤ hi → hi ≤ n →
    (searchLoop compare fuel lo hi).1 < n ∧
      ((searchLoop compare fuel lo hi).2 = true → 0 ≤ (searchLoop compare fuel lo hi).1 ∧
        compare (searchLoop compare fuel lo hi).1.toNat = .eq) := by
  induction fuel with
  | zero =>
      intro lo hi hle hn
      refine ⟨?_, fun h => Bool.noConfusion h⟩
      rw [searchLoop]
      omega
  | succ fuel ih =>
      intro lo hi hle hn
      rw [searchLoop]
      by_cases hlt : lo < hi
      · rw [if_pos hlt]
        cases hcmp : compare ((lo + hi) / 2) with
        | lt =>
            simp only [hcmp]
            exact ih _ _ (by omega) hn
        | gt =>
            simp only [hcmp]
            exact ih _ _ (by omega) (by omega)
        | eq =>
            simp only [hcmp]
            exact ⟨by omega, fun _ => ⟨Int.natCast_nonneg _, hcmp⟩⟩
      · rw [if_neg hlt]
        exact ⟨by omega, fun h => Bool.noConfusion h⟩

theorem search_lt (compare : Nat → Ordering) (n : Nat) : (search compare n).1 < n :=
  (searchLoop_bounds n 0 n (Nat.zero_le _) (Nat.le_refl _)).1

theorem search_found {compare : Nat → Ordering} {n : Nat} (h : (search compare n).2 = true) :
    0 ≤ (search compare n).1 ∧ compare (search compare n).1.toNat = .eq :=
  (searchLoop_bounds n 0 n (Nat.zero_le _) (Nat.le_refl _)).2 h

end StopsAtEqual
end Lib
end TreePass
