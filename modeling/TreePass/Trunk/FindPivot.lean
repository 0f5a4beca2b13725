import TreePass.Trunk.OndiskNode

/-!
# The pivot that a search returns

The search of `trunk_ondisk_node_find_pivot` always ends at the right pivot.  Its pointer was read
when the pivot was compared, and the pivots compared after it lie where they lie: if one of them is
on another page, the page of the pointer has been released.

* `Located` says which pivot is the right one.
* `probesAfter` are the pivots compared after the right one; they depend on the number of pivots only
  and on its place.
* `findPivot_spec`: the pointer is good at return exactly if `StaysReferenced`.
-/

namespace TreePass
namespace Trunk

open Btree (Key)

/-! ## Handles -/

namespace OndiskNodeHandle

/-- What holds of a handle from its beginning. -/
structure Valid (handle : OndiskNodeHandle) : Prop where
  stamp_pos : 0 < handle.nextStamp
  header : ∀ ref, handle.pivotPage = some ref → ref.page = 0 → ref = headerPage
  stamp_lt : ∀ ref, handle.pivotPage = some ref → ref.stamp < handle.nextStamp

theorem valid_init : init.Valid where
  stamp_pos := Nat.zero_lt_one
  header := fun ref h => by cases h
  stamp_lt := fun ref h => by cases h

variable {handle : OndiskNodeHandle} {pageSize offset : Nat}

theorem offsetIsInContentPage_iff (hpage : 0 < pageSize) (ref : PageRef) :
    offsetIsInContentPage pageSize offset ref = true ↔ offset / pageSize = ref.page := by
  rw [offsetIsInContentPage, Bool.and_eq_true, decide_eq_true_eq, decide_eq_true_eq,
    Nat.div_eq_iff hpage]
  omega

/-- What moving a handle to an offset does. -/
structure Moved (handle : OndiskNodeHandle) (page : Nat) (r : PageRef × OndiskNodeHandle) :
    Prop where
  valid : r.2.Valid
  page_eq : r.1.page = page
  current : r.2.pivotPage = some r.1
  le_stamp : handle.nextStamp ≤ r.2.nextStamp
  /-- An older reference stays exactly if the page is its page. -/
  holds_old : ∀ ref : PageRef, ref ≠ headerPage → ref.stamp < handle.nextStamp →
    (r.2.Holds ref ↔ handle.Holds ref ∧ page = ref.page)

private theorem movePivotPage_moved (h : handle.Valid) (hpage : 0 < pageSize)
    (hother : ∀ ref, handle.pivotPage = some ref → offset / pageSize ≠ ref.page) :
    Moved handle (offset / pageSize) (handle.movePivotPage pageSize offset) := by
  have hgone : ∀ ref : PageRef, ref ≠ headerPage → handle.Holds ref →
      offset / pageSize ≠ ref.page := by
    intro ref hne hholds
    exact hother ref (hholds.resolve_left hne)
  unfold movePivotPage
  by_cases hheader : offset < pageSize
  · rw [if_pos hheader]
    refine ⟨⟨h.stamp_pos, ?_, ?_⟩, (Nat.div_eq_of_lt hheader).symm, rfl, le_refl _, ?_⟩
    · intro ref href _
      exact (Option.some.inj href).symm
    · intro ref href
      obtain rfl := Option.some.inj href
      exact h.stamp_pos
    · intro ref hne _
      constructor
      · intro hholds
        exact absurd (Option.some.inj (hholds.resolve_left hne)).symm hne
      · rintro ⟨hholds, hsame⟩
        exact absurd hsame (hgone ref hne hholds)
  · rw [if_neg hheader]
    have hpos : offset / pageSize ≠ 0 := by
      have := Nat.div_pos (not_lt.mp hheader) hpage
      omega
    refine ⟨⟨Nat.succ_pos _, ?_, ?_⟩, rfl, rfl, Nat.le_succ _, ?_⟩
    · intro ref href hzero
      obtain rfl := Option.some.inj href
      exact absurd hzero hpos
    · intro ref href
      obtain rfl := Option.some.inj href
      exact Nat.lt_succ_self _
    · intro ref hne hold
      constructor
      · intro hholds
        obtain rfl := Option.some.inj (hholds.resolve_left hne)
        exact absurd hold (lt_irrefl _)
      · rintro ⟨hholds, hsame⟩
        exact absurd hsame (hgone ref hne hholds)

theorem setupContentPage_moved (h : handle.Valid) (hpage : 0 < pageSize) (offset : Nat) :
    Moved handle (offset / pageSize) (handle.setupContentPage pageSize offset) := by
  unfold setupContentPage
  cases hcurrent : handle.pivotPage with
  | none =>
      refine movePivotPage_moved h hpage fun ref href => ?_
      rw [hcurrent] at href
      cases href
  | some ref =>
      simp only
      by_cases hin : offsetIsInContentPage pageSize offset ref = true
      · have hsame := (offsetIsInContentPage_iff hpage ref).mp hin
        rw [if_pos hin]
        refine ⟨h, hsame.symm, hcurrent, le_refl _, fun old hne _ => ?_⟩
        constructor
        · intro hholds
          obtain rfl : ref = old := Option.some.inj (hcurrent.symm.trans (hholds.resolve_left hne))
          exact ⟨hholds, hsame⟩
        · exact fun hboth => hboth.1
      · rw [if_neg hin]
        refine movePivotPage_moved h hpage fun other hother => ?_
        obtain rfl := Option.some.inj (hcurrent.symm.trans hother)
        exact mt (offsetIsInContentPage_iff hpage ref).mpr hin

end OndiskNodeHandle

/-! ## The pivots that are compared -/

variable {K : Type} [LinearOrder K]

def Located (node : OndiskNode K) (tgt : Key K) (mode : FindMode) (i : Nat) : Prop :=
  ∃ low high, node.keys[i]? = some low ∧ node.keys[i + 1]? = some high ∧
    match mode with
    | .lessThanOrEqual => low ≤ tgt ∧ tgt < high
    | .lessThan => (i = 0 ∨ low < tgt) ∧ tgt ≤ high

/-- The last pivot not above the target, without the one that is the upper bound of the node. -/
def pivotRank (node : OndiskNode K) (tgt : Key K) : Nat :=
  node.keys.dropLast.countP (fun k => decide (k ≤ tgt)) - 1

/-- The pivots that the bisection of `(min, max)` compares with, where pivot `m` is the last one not
above the target. -/
def probes (m : Nat) : Nat → Nat → Nat → List Nat
  | 0, _, _ => []
  | fuel + 1, min, max =>
      if min + 1 < max then
        let mid := (min + max) / 2
        mid :: if mid ≤ m then probes m fuel mid max else probes m fuel min mid
      else []

def behind (m : Nat) (l : List Nat) : List Nat := (l.dropWhile fun i => i != m).tail

/-- The pivots compared after pivot `m` in a node of `n` pivots. -/
def probesAfter (n m : Nat) : List Nat := behind m (probes m n 0 (n - 1))

def pageOf (pageSize : Nat) (node : OndiskNode K) (i : Nat) : Nat :=
  (node.pivots[i]?.map fun p => p.1 / pageSize).getD 0

/-- The page of the pointer is not left, or the pointer is read again at the end. -/
def StaysReferenced (pageSize : Nat) (node : OndiskNode K) (tgt : Key K) (mode : FindMode) : Prop :=
  let m := pivotRank node tgt
  m = 0 ∨ (mode = .lessThan ∧ node.keys[m]? = some tgt) ∨ pageOf pageSize node m = 0 ∨
    ∀ i ∈ probesAfter node.numPivots m, pageOf pageSize node i = pageOf pageSize node m

theorem behind_cons_self (m : Nat) (l : List Nat) : behind m (m :: l) = l := by
  simp [behind]

theorem behind_cons_of_ne {m i : Nat} (hne : i ≠ m) (l : List Nat) :
    behind m (i :: l) = behind m l := by
  simp [behind, hne]

/-! ## The loop -/

section

variable {node : OndiskNode K} {tgt : Key K} {pageSize m : Nat}

/-- What holds whenever the loop tests its condition. -/
structure Tracks (pageSize : Nat) (node : OndiskNode K) (tgt : Key K) (m : Nat) (s : SearchState) :
    Prop where
  valid : s.handle.Valid
  min_le : s.min ≤ m
  lt_max : m < s.max
  max_lt : s.max < node.numPivots
  none_min : s.minPivot = none → s.min = 0
  some_min : ∀ ptr c, s.minPivot = some (ptr, c) → 0 < s.min ∧ ptr.num = s.min ∧
    (∀ k, node.keys[s.min]? = some k → c = cmp tgt k)
  /-- The pointer's page, and when the reference was taken. -/
  some_ref : ∀ ptr c, s.minPivot = some (ptr, c) → ptr.ref.page = pageOf pageSize node s.min ∧
    (ptr.ref.page = 0 → ptr.ref = headerPage) ∧ ptr.ref.stamp < s.handle.nextStamp

/-- The state after a comparison with pivot `mid`, which lies on `ref`. -/
def compared (m : Nat) (s : SearchState) (mid : Nat) (c : Ordering) (ref : PageRef)
    (handle : OndiskNodeHandle) : SearchState :=
  if mid ≤ m then ⟨mid, s.max, some (⟨mid, ref⟩, c), handle⟩
  else { s with max := mid, handle := handle }

omit [LinearOrder K] in
theorem getElem?_keys {i : Nat} {e : Nat × OndiskPivot K} (he : node.pivots[i]? = some e) :
    node.keys[i]? = some e.2.key := by
  rw [OndiskNode.keys, List.getElem?_map, he]
  rfl

omit [LinearOrder K] in
theorem pageOf_eq {i : Nat} {e : Nat × OndiskPivot K} (he : node.pivots[i]? = some e) :
    pageOf pageSize node i = e.1 / pageSize := by
  rw [pageOf, he]
  rfl

/-- **One round of the loop.**  It moves the handle to the page of the pivot in the middle, compares
with the pivot, and keeps the half in which pivot `m` is. -/
theorem findPivotLoop_step (hpage : 0 < pageSize)
    (hrank : ∀ i k, i < node.numPivots - 1 → node.keys[i]? = some k → (k ≤ tgt ↔ i ≤ m)) {s : SearchState}
    (hs : Tracks pageSize node tgt m s) (hlt : s.min + 1 < s.max) (fuel : Nat) :
    ∃ r c, OndiskNodeHandle.Moved s.handle (pageOf pageSize node ((s.min + s.max) / 2)) r ∧
      findPivotLoop pageSize node tgt (fuel + 1) s =
        findPivotLoop pageSize node tgt fuel (compared m s ((s.min + s.max) / 2) c r.1 r.2) ∧
      Tracks pageSize node tgt m (compared m s ((s.min + s.max) / 2) c r.1 r.2) := by
  generalize hmid : (s.min + s.max) / 2 = mid
  have hmidLast : mid < node.numPivots - 1 := by
    have := hs.max_lt
    omega
  have hmidLt : mid < node.pivots.length := hmidLast.trans_le (Nat.sub_le _ _)
  have he : node.pivots[mid]? = some node.pivots[mid] := List.getElem?_eq_getElem hmidLt
  generalize node.pivots[mid] = e at he
  have hmoved : OndiskNodeHandle.Moved s.handle (pageOf pageSize node mid)
      (s.handle.setupContentPage pageSize e.1) := by
    rw [pageOf_eq he]
    exact OndiskNodeHandle.setupContentPage_moved hs.valid hpage e.1
  have hget : getPivot pageSize node s.handle mid =
      some (⟨mid, (s.handle.setupContentPage pageSize e.1).1⟩,
        (s.handle.setupContentPage pageSize e.1).2) := by
    rw [getPivot, he]
    rfl
  generalize s.handle.setupContentPage pageSize e.1 = r at hmoved hget
  have hread : PivotPtr.read node r.2 ⟨mid, r.1⟩ = some e.2 := by
    rw [PivotPtr.read, if_pos (show r.2.Holds r.1 from Or.inr hmoved.current)]
    show node.pivots[mid]?.map Prod.snd = some e.2
    rw [he]
    rfl
  have hside : cmp tgt e.2.key = .lt ↔ ¬ mid ≤ m := by
    rw [cmp_eq_lt_iff, ← hrank mid e.2.key hmidLast (getElem?_keys he), not_le]
  refine ⟨r, cmp tgt e.2.key, hmoved, ?_, ?_⟩
  · show (if s.min + 1 < s.max then _ else _) = _
    rw [if_pos hlt]
    show (getPivot pageSize node s.handle ((s.min + s.max) / 2)).bind (fun r =>
      (PivotPtr.read node r.2 r.1).bind fun pivot => if cmp tgt pivot.key = .lt then _ else _) = _
    rw [hmid, hget, Option.bind_some, hread, Option.bind_some]
    by_cases hle : mid ≤ m
    · rw [if_neg fun h => hside.mp h hle, compared, if_pos hle]
    · rw [if_pos (hside.mpr hle), compared, if_neg hle]
  · unfold compared
    by_cases hle : mid ≤ m
    · rw [if_pos hle]
      constructor
      · exact hmoved.valid
      · exact hle
      · exact hs.lt_max
      · exact hs.max_lt
      · intro hnone
        cases hnone
      · intro ptr c hptr
        cases hptr
        refine ⟨show 0 < mid by omega, rfl, fun k hk => ?_⟩
        obtain rfl := Option.some.inj ((getElem?_keys he).symm.trans hk)
        rfl
      · intro ptr c hptr
        cases hptr
        exact ⟨hmoved.page_eq, hmoved.valid.header _ hmoved.current,
          hmoved.valid.stamp_lt _ hmoved.current⟩
    · rw [if_neg hle]
      constructor
      · exact hmoved.valid
      · exact hs.min_le
      · exact not_le.mp hle
      · exact hmidLt
      · exact hs.none_min
      · exact hs.some_min
      · intro ptr c hptr
        obtain ⟨hpageEq, hheader, hstamp⟩ := hs.some_ref ptr c hptr
        exact ⟨hpageEq, hheader, lt_of_lt_of_le hstamp hmoved.le_stamp⟩

theorem compared_of_le {mid : Nat} (hle : mid ≤ m) (s : SearchState) (c : Ordering) (ref : PageRef)
    (handle : OndiskNodeHandle) :
    compared m s mid c ref handle = ⟨mid, s.max, some (⟨mid, ref⟩, c), handle⟩ := if_pos hle

theorem compared_of_lt {mid : Nat} (hlt : m < mid) (s : SearchState) (c : Ordering) (ref : PageRef)
    (handle : OndiskNodeHandle) :
    compared m s mid c ref handle = { s with max := mid, handle := handle } :=
  if_neg (not_le.mpr hlt)

theorem probes_succ_of_le {fuel min max : Nat} (hlt : min + 1 < max) (hle : (min + max) / 2 ≤ m) :
    probes m (fuel + 1) min max = (min + max) / 2 :: probes m fuel ((min + max) / 2) max := by
  rw [probes, if_pos hlt]
  simp only [if_pos hle]

theorem probes_succ_of_lt {fuel min max : Nat} (hlt : min + 1 < max) (hmid : m < (min + max) / 2) :
    probes m (fuel + 1) min max = (min + max) / 2 :: probes m fuel min ((min + max) / 2) := by
  rw [probes, if_pos hlt]
  simp only [if_neg (not_le.mpr hmid)]

theorem probes_of_not_lt {fuel min max : Nat} (hlt : ¬ min + 1 < max) :
    probes m fuel min max = [] := by
  cases fuel with
  | zero => rfl
  | succ fuel => rw [probes, if_neg hlt]

theorem findPivotLoop_done {fuel : Nat} {s : SearchState} (hlt : ¬ s.min + 1 < s.max) :
    findPivotLoop pageSize node tgt fuel s = some s := by
  cases fuel with
  | zero =>
      show (if s.min + 1 < s.max then _ else _) = _
      rw [if_neg hlt]
  | succ fuel =>
      show (if s.min + 1 < s.max then _ else _) = _
      rw [if_neg hlt]

/-- **The loop at its pivot.**  From the state in which the lower bound is pivot `m` the pointer does
not change, and its reference stays as long as the loop stays on its page. -/
theorem findPivotLoop_settled (hpage : 0 < pageSize)
    (hrank : ∀ i k, i < node.numPivots - 1 → node.keys[i]? = some k → (k ≤ tgt ↔ i ≤ m)) (fuel : Nat) {s : SearchState}
    {ptr : PivotPtr} {c : Ordering} (hs : Tracks pageSize node tgt m s) (hmin : s.min = m)
    (hptr : s.minPivot = some (ptr, c)) (hfuel : s.max ≤ s.min + 1 + fuel) :
    ∃ s', findPivotLoop pageSize node tgt fuel s = some s' ∧ Tracks pageSize node tgt m s' ∧
      s'.min = m ∧ s'.minPivot = some (ptr, c) ∧
      (s'.handle.Holds ptr.ref ↔ ptr.ref = headerPage ∨ (s.handle.Holds ptr.ref ∧
        ∀ i ∈ probes m fuel s.min s.max, pageOf pageSize node i = ptr.ref.page)) := by
  induction fuel generalizing s with
  | zero =>
      refine ⟨s, findPivotLoop_done (by omega), hs, hmin, hptr, ?_⟩
      rw [probes_of_not_lt (by omega)]
      constructor
      · exact fun hholds => Or.inr ⟨hholds, fun i hi => by cases hi⟩
      · exact fun h => h.elim Or.inl fun hboth => hboth.1
  | succ fuel ih =>
      by_cases hlt : s.min + 1 < s.max
      · obtain ⟨r, d, hmoved, hloop, htracks⟩ := findPivotLoop_step hpage hrank hs hlt fuel
        have hright : m < (s.min + s.max) / 2 := by omega
        rw [hloop, probes_succ_of_lt hlt hright]
        rw [compared_of_lt hright] at htracks ⊢
        have hleft : (s.min + s.max) / 2 ≤ s.min + 1 + fuel := by omega
        obtain ⟨s', hrun, htracks', hmin', hptr', hholds⟩ := ih htracks hmin hptr hleft
        refine ⟨s', hrun, htracks', hmin', hptr', hholds.trans ?_⟩
        by_cases hheader : ptr.ref = headerPage
        · simp only [hheader, true_or]
        · have hold := hmoved.holds_old ptr.ref hheader (hs.some_ref ptr c hptr).2.2
          simp only [hheader, false_or, hold, List.forall_mem_cons, and_assoc]
      · refine ⟨s, findPivotLoop_done hlt, hs, hmin, hptr, ?_⟩
        rw [probes_of_not_lt hlt]
        constructor
        · exact fun hholds => Or.inr ⟨hholds, fun i hi => by cases hi⟩
        · exact fun h => h.elim Or.inl fun hboth => hboth.1

/-- What a search that has not come to pivot `m` yet ends with. -/
def EndsAt (pageSize : Nat) (node : OndiskNode K) (tgt : Key K) (m fuel : Nat) (s s' : SearchState) :
    Prop :=
  Tracks pageSize node tgt m s' ∧ s'.min = m ∧ ∀ ptr c, s'.minPivot = some (ptr, c) →
    (s'.handle.Holds ptr.ref ↔ ptr.ref = headerPage ∨
      ∀ i ∈ behind m (probes m fuel s.min s.max), pageOf pageSize node i = ptr.ref.page)

private theorem endsAt_self {fuel : Nat} {s : SearchState} (hs : Tracks pageSize node tgt m s)
    (hmin : s.min < m ∨ m = 0) (hlt : ¬ s.min + 1 < s.max) :
    EndsAt pageSize node tgt m fuel s s := by
  have hminLe := hs.min_le
  have hltMax := hs.lt_max
  refine ⟨hs, by omega, fun ptr c hptr => ?_⟩
  have := (hs.some_min ptr c hptr).1
  omega

/-- **The loop on its way.**  It ends with pivot `m` as its lower bound; the reference of the pointer
has stayed if all pivots compared after pivot `m` are on its page. -/
theorem findPivotLoop_spec (hpage : 0 < pageSize)
    (hrank : ∀ i k, i < node.numPivots - 1 → node.keys[i]? = some k → (k ≤ tgt ↔ i ≤ m)) (fuel : Nat) {s : SearchState}
    (hs : Tracks pageSize node tgt m s) (hmin : s.min < m ∨ m = 0)
    (hfuel : s.max ≤ s.min + 1 + fuel) :
    ∃ s', findPivotLoop pageSize node tgt fuel s = some s' ∧
      EndsAt pageSize node tgt m fuel s s' := by
  induction fuel generalizing s with
  | zero => exact ⟨s, findPivotLoop_done (by omega), endsAt_self hs hmin (by omega)⟩
  | succ fuel ih =>
      by_cases hlt : s.min + 1 < s.max
      · obtain ⟨r, d, hmoved, hloop, htracks⟩ := findPivotLoop_step hpage hrank hs hlt fuel
        rw [hloop]
        generalize hmid : (s.min + s.max) / 2 = mid at hmoved htracks ⊢
        rcases lt_trichotomy mid m with hbelow | hat | habove
        · rw [compared_of_le hbelow.le] at htracks ⊢
          obtain ⟨s', hrun, htracks', hmin', hholds⟩ :=
            ih htracks (Or.inl hbelow) (show s.max ≤ mid + 1 + fuel by omega)
          refine ⟨s', hrun, htracks', hmin', fun ptr c hptr => ?_⟩
          rw [probes_succ_of_le hlt (hmid.trans_le hbelow.le), hmid, behind_cons_of_ne hbelow.ne]
          exact hholds ptr c hptr
        · rw [compared_of_le hat.le] at htracks ⊢
          obtain ⟨s', hrun, htracks', hmin', hptr', hholds⟩ := findPivotLoop_settled hpage hrank fuel
            htracks hat rfl (show s.max ≤ mid + 1 + fuel by omega)
          refine ⟨s', hrun, htracks', hmin', fun ptr c hptr => ?_⟩
          obtain ⟨rfl, rfl⟩ := Prod.mk.inj (Option.some.inj (hptr'.symm.trans hptr))
          -- The pointer has just been read.
          have hnow : r.2.Holds r.1 := Or.inr hmoved.current
          rw [probes_succ_of_le hlt (hmid.trans_le hat.le), hmid]
          rw [show behind m (mid :: probes m fuel mid s.max) = probes m fuel mid s.max by
            rw [hat, behind_cons_self]]
          exact hholds.trans (or_congr_right (and_iff_right hnow))
        · rw [compared_of_lt habove] at htracks ⊢
          obtain ⟨s', hrun, htracks', hmin', hholds⟩ :=
            ih htracks hmin (show mid ≤ s.min + 1 + fuel by omega)
          refine ⟨s', hrun, htracks', hmin', fun ptr c hptr => ?_⟩
          rw [probes_succ_of_lt hlt (habove.trans_eq hmid.symm), hmid, behind_cons_of_ne habove.ne']
          exact hholds ptr c hptr
      · exact ⟨s, findPivotLoop_done hlt, endsAt_self hs hmin hlt⟩

end

/-! ## The search -/

/-- What a search is called on: a node of two pivots or more with increasing keys, and a target in
its range.  A search for `less_than` may be for the upper bound of the node. -/
structure Searchable (node : OndiskNode K) (tgt : Key K) (mode : FindMode) : Prop where
  two_le : 2 ≤ node.numPivots
  sorted : node.keys.Pairwise (· < ·)
  first_le : ∀ k, node.keys[0]? = some k → k ≤ tgt
  lt_last : ∀ k, node.keys[node.numPivots - 1]? = some k → tgt < k ∨ (mode = .lessThan ∧ tgt = k)

/-- The search returns the right pivot, on a page that is still referenced. -/
def FindsReferenced (pageSize : Nat) (node : OndiskNode K) (handle : OndiskNodeHandle) (tgt : Key K)
    (mode : FindMode) : Prop :=
  ∃ ptr handle', findPivot pageSize node handle tgt mode = some (ptr, handle') ∧
    Located node tgt mode ptr.num ∧ ptr.ref.page = pageOf pageSize node ptr.num ∧
    handle'.Holds ptr.ref

section

variable {node : OndiskNode K} {tgt : Key K} {mode : FindMode} {pageSize : Nat}
  {handle : OndiskNodeHandle}

namespace Searchable

omit [LinearOrder K] in
theorem getElem?_isSome (node : OndiskNode K) (i : Nat) (hi : i < node.numPivots) : ∃ k, node.keys[i]? = some k := by
  have hlen : node.keys.length = node.numPivots := List.length_map ..
  exact ⟨_, List.getElem?_eq_getElem (hlen.symm ▸ hi)⟩

theorem le_iff (h : Searchable node tgt mode) (i : Nat) (k : Key K) (hi : i < node.numPivots - 1)
    (hk : node.keys[i]? = some k) : k ≤ tgt ↔ i ≤ pivotRank node tgt := by
  have hlen : node.keys.length = node.numPivots := List.length_map ..
  have hdrop : ∀ j, j < node.numPivots - 1 → node.keys.dropLast[j]? = node.keys[j]? := by
    intro j hj
    rw [List.getElem?_dropLast, if_pos (by omega)]
  have hinitial := Btree.initial_le (h.sorted.sublist (List.dropLast_sublist _)) tgt
  have htwo := h.two_le
  obtain ⟨first, hfirst⟩ := getElem?_isSome node 0 (by omega)
  have hpos := (hinitial.getElem_iff ((hdrop 0 (by omega)).trans hfirst)).mp
    (decide_eq_true (h.first_le first hfirst))
  have hiff := hinitial.getElem_iff ((hdrop i hi).trans hk)
  rw [decide_eq_true_eq] at hiff
  rw [hiff, pivotRank]
  omega

theorem pivotRank_lt (h : Searchable node tgt mode) : pivotRank node tgt < node.numPivots - 1 := by
  have hlen : node.keys.length = node.numPivots := List.length_map ..
  have hcount : node.keys.dropLast.countP (fun k => decide (k ≤ tgt)) ≤ node.keys.dropLast.length :=
    List.countP_le_length
  rw [List.length_dropLast, hlen] at hcount
  have htwo := h.two_le
  unfold pivotRank
  omega

theorem around (h : Searchable node tgt mode) : ∃ low high,
    node.keys[pivotRank node tgt]? = some low ∧ node.keys[pivotRank node tgt + 1]? = some high ∧
      low ≤ tgt ∧ (tgt < high ∨ (mode = .lessThan ∧ tgt = high)) := by
  have hlt := h.pivotRank_lt
  obtain ⟨low, hlow⟩ := getElem?_isSome node (pivotRank node tgt) (by omega)
  obtain ⟨high, hhigh⟩ := getElem?_isSome node (pivotRank node tgt + 1) (by omega)
  refine ⟨low, high, hlow, hhigh, (h.le_iff _ low hlt hlow).mpr (le_refl _), ?_⟩
  by_cases hlast : pivotRank node tgt + 1 = node.numPivots - 1
  · exact h.lt_last high (hlast ▸ hhigh)
  · exact Or.inl (not_le.mp (mt (h.le_iff _ high (by omega) hhigh).mp (by omega)))

theorem before (h : Searchable node tgt mode) (hpos : 0 < pivotRank node tgt)
    (hequal : node.keys[pivotRank node tgt]? = some tgt) :
    ∃ low, node.keys[pivotRank node tgt - 1]? = some low ∧ low < tgt := by
  have hlt := h.pivotRank_lt
  obtain ⟨low, hlow⟩ := getElem?_isSome node (pivotRank node tgt - 1) (by omega)
  obtain ⟨hi, hlowEq⟩ := List.getElem?_eq_some_iff.mp hlow
  obtain ⟨hj, htgtEq⟩ := List.getElem?_eq_some_iff.mp hequal
  have := List.pairwise_iff_getElem.mp h.sorted _ _ hi hj (by omega)
  rw [hlowEq, htgtEq] at this
  exact ⟨low, hlow, this⟩

theorem tracks (h : Searchable node tgt mode) (pageSize : Nat) (hvalid : handle.Valid) :
    Tracks pageSize node tgt (pivotRank node tgt) ⟨0, node.numPivots - 1, none, handle⟩ where
  valid := hvalid
  min_le := Nat.zero_le _
  lt_max := h.pivotRank_lt
  max_lt := by
    have := h.two_le
    show node.numPivots - 1 < node.numPivots
    omega
  none_min := fun _ => rfl
  some_min := fun ptr c hptr => by cases hptr
  some_ref := fun ptr c hptr => by cases hptr

end Searchable

omit [LinearOrder K] in
private theorem getPivot_spec (node : OndiskNode K) (hpage : 0 < pageSize) (hvalid : handle.Valid) {i : Nat}
    (hi : i < node.numPivots) : ∃ ptr handle', getPivot pageSize node handle i = some (ptr, handle') ∧
      ptr.num = i ∧ ptr.ref.page = pageOf pageSize node i ∧ handle'.Holds ptr.ref := by
  have he : node.pivots[i]? = some node.pivots[i] := List.getElem?_eq_getElem hi
  have hmoved := OndiskNodeHandle.setupContentPage_moved hvalid hpage node.pivots[i].1
  rw [getPivot, he, pageOf_eq he]
  exact ⟨_, _, rfl, rfl, hmoved.page_eq, Or.inr hmoved.current⟩

private theorem findPivot_of_none {s : SearchState}
    (hloop : findPivotLoop pageSize node tgt node.numPivots ⟨0, node.numPivots - 1, none, handle⟩ =
      some s) (hptr : s.minPivot = none) (mode : FindMode) :
    findPivot pageSize node handle tgt mode = getPivot pageSize node s.handle s.min := by
  rw [findPivot, hloop]
  simp only [Option.bind_eq_bind, Option.bind_some, hptr]

private theorem findPivot_of_some {s : SearchState} {ptr : PivotPtr} {c : Ordering}
    (hloop : findPivotLoop pageSize node tgt node.numPivots ⟨0, node.numPivots - 1, none, handle⟩ =
      some s) (hptr : s.minPivot = some (ptr, c)) (mode : FindMode) :
    findPivot pageSize node handle tgt mode =
      if 0 < s.min ∧ c = .eq ∧ mode = .lessThan then getPivot pageSize node s.handle (s.min - 1)
      else some (ptr, s.handle) := by
  rw [findPivot, hloop]
  simp only [Option.bind_eq_bind, Option.bind_some, hptr]

/-- **What the search of a node returns.**  The pivot is always the right one; its page is still
referenced exactly if it has not been left. -/
theorem findPivot_spec (hpage : 0 < pageSize) (hvalid : handle.Valid) (h : Searchable node tgt mode) :
    ∃ ptr handle',
      findPivot pageSize node handle tgt mode = some (ptr, handle') ∧
      Located node tgt mode ptr.num ∧ ptr.ref.page = pageOf pageSize node ptr.num ∧
      (handle'.Holds ptr.ref ↔ StaysReferenced pageSize node tgt mode) := by
  have hrankLt := h.pivotRank_lt
  obtain ⟨low, high, hlow, hhigh, hle, hlt⟩ := h.around
  have hhighLe : tgt ≤ high := hlt.elim le_of_lt fun hboth => hboth.2.le
  obtain ⟨s, hloop, hs, hmin, hholds⟩ := findPivotLoop_spec hpage h.le_iff node.numPivots
    (h.tracks pageSize hvalid) (by show 0 < _ ∨ _; omega)
    (by show node.numPivots - 1 ≤ 0 + 1 + node.numPivots; omega)
  cases hptr : s.minPivot with
  | none =>
      have hzero : pivotRank node tgt = 0 := hmin.symm.trans (hs.none_min hptr)
      obtain ⟨ptr, handle', hget, hnum, href, hhold⟩ := getPivot_spec node hpage hs.valid
        (i := s.min) (by omega)
      refine ⟨ptr, handle', (findPivot_of_none hloop hptr mode).trans hget, ?_, hnum ▸ href, ?_⟩
      · rw [hnum, hmin]
        refine ⟨low, high, hlow, hhigh, ?_⟩
        cases mode with
        | lessThan => exact ⟨Or.inl hzero, hhighLe⟩
        | lessThanOrEqual => exact ⟨hle, hlt.resolve_right fun hboth => by cases hboth.1⟩
      · exact ⟨fun _ => Or.inl hzero, fun _ => hhold⟩
  | some minPivot =>
      obtain ⟨ptr, c⟩ := minPivot
      obtain ⟨hpos, hnum, hcmp⟩ := hs.some_min ptr c hptr
      obtain ⟨hrefPage, hheader, -⟩ := hs.some_ref ptr c hptr
      rw [hmin] at hpos hnum hrefPage
      obtain rfl := hcmp low (hmin ▸ hlow)
      have hequal : cmp tgt low = .eq ↔ node.keys[pivotRank node tgt]? = some tgt := by
        rw [cmp_eq_eq_iff, hlow, Option.some.injEq, eq_comm]
      by_cases hback : cmp tgt low = .eq ∧ mode = .lessThan
      · obtain ⟨heq, rfl⟩ := hback
        have hkey := hequal.mp heq
        obtain ⟨below, hbelow, hbelowLt⟩ := h.before hpos hkey
        obtain ⟨back, handle', hget, hbackNum, href, hhold⟩ := getPivot_spec node hpage
          hs.valid (i := s.min - 1) (by omega)
        refine ⟨back, handle', (findPivot_of_some hloop hptr _).trans ?_, ?_, hbackNum ▸ href, ?_⟩
        · rw [if_pos ⟨hmin ▸ hpos, heq, rfl⟩, hget]
        · rw [hbackNum, hmin]
          refine ⟨below, tgt, hbelow, ?_, Or.inr hbelowLt, le_refl _⟩
          rw [Nat.sub_add_cancel hpos, hkey]
        · exact ⟨fun _ => Or.inr (Or.inl ⟨rfl, hkey⟩), fun _ => hhold⟩
      · have hbackNot : ¬ (0 < s.min ∧ cmp tgt low = .eq ∧ mode = .lessThan) := fun hall =>
          hback hall.2
        refine ⟨ptr, s.handle, (findPivot_of_some hloop hptr _).trans (if_neg hbackNot), ?_,
          hnum ▸ hrefPage, ?_⟩
        · rw [hnum]
          refine ⟨low, high, hlow, hhigh, ?_⟩
          cases mode with
          | lessThanOrEqual => exact ⟨hle, hlt.resolve_right fun hboth => by cases hboth.1⟩
          | lessThan =>
              have hne : low ≠ tgt := fun heq => hback ⟨(cmp_eq_eq_iff ..).mpr heq.symm, rfl⟩
              exact ⟨Or.inr (lt_of_le_of_ne hle hne), hhighLe⟩
        · rw [hholds ptr _ hptr, hrefPage]
          unfold StaysReferenced
          constructor
          · rintro (hhead | hstay)
            · refine Or.inr (Or.inr (Or.inl ?_))
              rw [← hrefPage, hhead]
              rfl
            · exact Or.inr (Or.inr (Or.inr hstay))
          · rintro (hzero | ⟨hmode, hkey⟩ | hfirst | hstay)
            · omega
            · exact absurd ⟨hequal.mpr hkey, hmode⟩ hback
            · exact Or.inl (hheader (hrefPage.trans hfirst))
            · exact Or.inr hstay

/-- **A search returns a pivot on a referenced page exactly if the page of the pivot is not left.** -/
theorem findPivot_referenced_iff (hpage : 0 < pageSize) (hvalid : handle.Valid)
    (h : Searchable node tgt mode) :
    FindsReferenced pageSize node handle tgt mode ↔ StaysReferenced pageSize node tgt mode := by
  obtain ⟨ptr, handle', hfind, hloc, href, hiff⟩ := findPivot_spec hpage hvalid h
  constructor
  · rintro ⟨ptr', handle'', hfind', -, -, hhold⟩
    obtain ⟨rfl, rfl⟩ := Prod.mk.inj (Option.some.inj (hfind.symm.trans hfind'))
    exact hiff.mp hhold
  · exact fun hstays => ⟨ptr, handle', hfind, hloc, href, hiff.mpr hstays⟩

theorem findPivotAsync_eq : findPivotAsync pageSize node handle tgt =
    findPivot pageSize node handle tgt .lessThanOrEqual := by
  unfold findPivotAsync findPivot
  simp

end

/-! ## A node of three pages -/

/-- Four pivots; the second and the third lie on pages of their own. -/
private def threePages : OndiskNode Nat where
  height := 1
  pivots := [(100, ⟨⊥, 1, 0, emptyBundle⟩), (4096, ⟨Key.user 10, 2, 0, emptyBundle⟩),
    (8192, ⟨Key.user 20, 3, 0, emptyBundle⟩), (8300, ⟨⊤, 0, 0, emptyBundle⟩)]
  inflightBundles := []

private theorem threePages_searchable (k : Nat) (mode : FindMode) :
    Searchable threePages (Key.user k) mode where
  two_le := by decide
  sorted := by decide +kernel
  first_le := fun key hkey => by
    cases hkey
    exact bot_le
  lt_last := fun key hkey => by
    cases hkey
    exact Or.inl (WithBot.coe_lt_coe.mpr (WithTop.coe_lt_top k))

/-- The search for 20 ends at the pivot it has read last. -/
theorem findPivot_referenced_iff_threePages :
    FindsReferenced 4096 threePages .init (Key.user 20) .lessThanOrEqual :=
  (findPivot_referenced_iff (by decide) OndiskNodeHandle.valid_init
    (threePages_searchable 20 .lessThanOrEqual)).mpr (Or.inr (Or.inr (Or.inr (by decide +kernel))))

/-- The search for 15 compares with pivot 1, which it returns, and then with pivot 2. -/
theorem findPivot_leaves_page :
    ¬ ∀ (node : OndiskNode Nat) (tgt : Key Nat) (mode : FindMode), Searchable node tgt mode →
      FindsReferenced 4096 node .init tgt mode := by
  intro hclaim
  obtain ⟨ptr, handle', hfind, -, -, hhold⟩ :=
    hclaim threePages (Key.user 15) .lessThanOrEqual (threePages_searchable 15 _)
  have hrun : findPivot 4096 threePages .init (Key.user 15) .lessThanOrEqual =
      some (⟨1, ⟨1, 1⟩⟩, ⟨some ⟨2, 2⟩, 3⟩) := by decide +kernel
  obtain ⟨rfl, rfl⟩ := Prod.mk.inj (Option.some.inj (hrun.symm.trans hfind))
  revert hhold
  decide

end Trunk
end TreePass
