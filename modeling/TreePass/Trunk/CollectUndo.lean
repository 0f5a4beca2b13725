import TreePass.Trunk.CollectBranches
import TreePass.Trunk.FindPivot

/-!
# Collecting branches and giving them back

A collection that fails gives back the references to the branches from the number at entry to the
number at the failure.  That is right if no bundle is too long for the array.  If one is, the number
at the failure is not that of the branches with a reference.

* `Collector.taken` is what a collection of some branches leaves behind.
* `LookupWay` are the bundles on the way of a lookup, up to the first fault.
* `collectLoop_eq`: the walk collects the bundles on the way.
* `Undoable` says at which bundle a collection may run out of room so that its cleanup is right.
-/

namespace TreePass
namespace Trunk

open Btree (Key)

/-! ## The array and the counts -/

def writeAt (branches : Nat → Nat) (n : Nat) : List Nat → Nat → Nat
  | [] => branches
  | addr :: rest => writeAt (Function.update branches n addr) (n + 1) rest

/-- The counts with one reference more to each branch of a list. -/
def addRefs (refs : Nat → Nat) (l : List Nat) : Nat → Nat := fun a => refs a + l.count a

/-- `count` branches of the array from position `i`. -/
def slice (branches : Nat → Nat) (i count : Nat) : List Nat := (List.range' i count).map branches

theorem writeAt_of_lt (branches : Nat → Nat) {n j : Nat} (l : List Nat) (hlt : j < n) :
    writeAt branches n l j = branches j := by
  induction l generalizing branches n with
  | nil => rfl
  | cons addr rest ih =>
      rw [writeAt, ih _ (Nat.lt_succ_of_lt hlt), Function.update_of_ne hlt.ne]

theorem writeAt_append (branches : Nat → Nat) (n : Nat) (l l' : List Nat) :
    writeAt branches n (l ++ l') = writeAt (writeAt branches n l) (n + l.length) l' := by
  induction l generalizing branches n with
  | nil => rfl
  | cons addr rest ih =>
      rw [List.cons_append, writeAt, ih, writeAt, List.length_cons, Nat.add_right_comm, Nat.add_assoc]

theorem slice_writeAt (branches : Nat → Nat) (n : Nat) (l : List Nat) :
    slice (writeAt branches n l) n l.length = l := by
  induction l generalizing branches n with
  | nil => rfl
  | cons addr rest ih =>
      have htail := ih (Function.update branches n addr) (n + 1)
      unfold slice at htail ⊢
      rw [writeAt, List.length_cons, List.range'_succ, List.map_cons, htail,
        writeAt_of_lt _ _ (Nat.lt_succ_self n), Function.update_self]

theorem slice_writeAt_append (branches : Nat → Nat) (n : Nat) (l l' : List Nat) :
    slice (writeAt branches n (l ++ l')) n l.length = l := by
  have hall := slice_writeAt branches n (l ++ l')
  unfold slice at hall ⊢
  rw [List.length_append, ← List.range'_append_1, List.map_append] at hall
  exact (List.append_inj hall (by rw [List.length_map, List.length_range'])).1

theorem addRefs_append (refs : Nat → Nat) (l l' : List Nat) :
    addRefs refs (l ++ l') = addRefs (addRefs refs l) l' := by
  funext a
  show refs a + (l ++ l').count a = refs a + l.count a + l'.count a
  rw [List.count_append, Nat.add_assoc]

theorem foldl_btreeIncRef (refs : Nat → Nat) (l : List Nat) :
    l.foldl btreeIncRef refs = addRefs refs l := by
  induction l generalizing refs with
  | nil => rfl
  | cons addr rest ih =>
      rw [List.foldl_cons, ih]
      funext a
      unfold addRefs btreeIncRef
      rw [List.count_cons]
      by_cases h : a = addr
      · subst h
        rw [Function.update_self, if_pos (beq_self_eq_true a)]
        omega
      · rw [Function.update_of_ne h, if_neg fun hbeq => h (beq_iff_eq.mp hbeq).symm]
        omega

/-! ## The cleanup -/

section

variable {capacity : Nat} {branches refs refs' : Nat → Nat}

theorem btreeDecRef_eq_some {addr : Nat} (h : btreeDecRef refs addr = some refs') (a : Nat) :
    refs' a + (if a = addr then 1 else 0) = refs a := by
  unfold btreeDecRef at h
  obtain ⟨hpos, hsome⟩ := Option.ite_none_right_eq_some.mp h
  obtain rfl := Option.some.inj hsome
  by_cases ha : a = addr
  · subst ha
    rw [Function.update_self, if_pos rfl]
    omega
  · rw [Function.update_of_ne ha, if_neg ha]
    rfl

theorem decRefs_eq_some {count i : Nat} (h : decRefs capacity branches count i refs = some refs') :
    (count = 0 ∨ i + count ≤ capacity) ∧ ∀ a, refs' a + (slice branches i count).count a = refs a := by
  induction count generalizing i refs with
  | zero =>
      obtain rfl := Option.some.inj h
      exact ⟨Or.inl rfl, fun a => rfl⟩
  | succ count ih =>
      rw [decRefs] at h
      obtain ⟨hlt, hbind⟩ := Option.ite_none_right_eq_some.mp h
      obtain ⟨mid, hdec, hrest⟩ := Option.bind_eq_some_iff.mp hbind
      obtain ⟨hle, hcount⟩ := ih hrest
      refine ⟨Or.inr (by omega), fun a => ?_⟩
      have hfirst := btreeDecRef_eq_some hdec a
      have hothers := hcount a
      unfold slice at hothers ⊢
      rw [List.range'_succ, List.map_cons, List.count_cons, ← hfirst, ← hothers]
      by_cases ha : a = branches i
      · rw [if_pos ha, if_pos (beq_iff_eq.mpr ha.symm), Nat.add_assoc]
      · rw [if_neg ha, if_neg fun hbeq => ha (beq_iff_eq.mp hbeq).symm]
        rfl

theorem exists_decRefs (branches refs : Nat → Nat) {count i : Nat} (hle : i + count ≤ capacity)
    (henough : ∀ a, (slice branches i count).count a ≤ refs a) :
    ∃ refs', decRefs capacity branches count i refs = some refs' := by
  induction count generalizing i refs with
  | zero => exact ⟨refs, rfl⟩
  | succ count ih =>
      have hcons : slice branches i (count + 1) = branches i :: slice branches (i + 1) count := by
        rw [slice, List.range'_succ, List.map_cons, slice]
      have hpos : refs (branches i) ≠ 0 := by
        have := henough (branches i)
        rw [hcons, List.count_cons_self] at this
        omega
      have hdec : btreeDecRef refs (branches i) =
          some (Function.update refs (branches i) (refs (branches i) - 1)) := if_pos hpos
      obtain ⟨refs', hrest⟩ := ih (Function.update refs (branches i) (refs (branches i) - 1))
        (i := i + 1) (by omega) fun a => by
          have hdecA := btreeDecRef_eq_some hdec a
          have hthis := henough a
          rw [hcons, List.count_cons] at hthis
          by_cases ha : a = branches i
          · rw [if_pos ha] at hdecA
            rw [if_pos (beq_iff_eq.mpr ha.symm)] at hthis
            omega
          · rw [if_neg ha] at hdecA
            rw [if_neg fun hbeq => ha (beq_iff_eq.mp hbeq).symm] at hthis
            omega
      refine ⟨refs', ?_⟩
      rw [decRefs, if_pos (by omega), hdec]
      exact hrest

end

/-! ## Collecting bundles -/

/-- The branches of some bundles from the newest to the oldest. -/
def newestFirst (bundles : List Bundle) : List Nat := bundles.flatMap fun b => b.branches.reverse

/-- The state after branches have been collected with a reference to each. -/
def Collector.taken (s : Collector) (l : List Nat) : Collector :=
  ⟨writeAt s.branches s.numBranches l, s.numBranches + l.length, addRefs s.refs l⟩

theorem Collector.taken_append (s : Collector) (l l' : List Nat) :
    s.taken (l ++ l') = (s.taken l).taken l' := by
  unfold Collector.taken
  rw [writeAt_append, addRefs_append, List.length_append, Nat.add_assoc]

section

variable {capacity : Nat}

theorem collectBundleFrom_fits (l : List Nat) {s : Collector}
    (hfits : s.numBranches + l.length ≤ capacity) : collectBundleFrom capacity l s =
      (true, ⟨writeAt s.branches s.numBranches l, s.numBranches + l.length, s.refs⟩) := by
  induction l generalizing s with
  | nil => rfl
  | cons addr older ih =>
      rw [List.length_cons] at hfits
      rw [collectBundleFrom, if_neg (by omega), ih (by show s.numBranches + 1 + _ ≤ _; omega),
        writeAt, List.length_cons]
      rw [show s.numBranches + 1 + older.length = s.numBranches + (older.length + 1) by omega]

/-- **A bundle for which there is no room.**  The array is filled; the number goes back by the
branches that are left. -/
theorem collectBundleFrom_overflows (l : List Nat) {s : Collector}
    (hle : s.numBranches ≤ capacity) (hover : capacity < s.numBranches + l.length) :
    collectBundleFrom capacity l s = (false,
      ⟨writeAt s.branches s.numBranches (l.take (capacity - s.numBranches)),
        (capacity + numBranchesMod - (l.length - 1 - (capacity - s.numBranches))) % numBranchesMod,
        s.refs⟩) := by
  induction l generalizing s with
  | nil =>
      rw [List.length_nil] at hover
      omega
  | cons addr older ih =>
      rw [List.length_cons] at hover
      by_cases hfull : s.numBranches = capacity
      · rw [collectBundleFrom, if_pos hfull, hfull, Nat.sub_self, List.take_zero, List.length_cons,
          Nat.add_sub_cancel, Nat.sub_zero]
        rfl
      · have hroom : capacity - s.numBranches = capacity - (s.numBranches + 1) + 1 := by omega
        rw [collectBundleFrom, if_neg hfull, ih (by show s.numBranches + 1 ≤ _; omega)
          (by show _ < s.numBranches + 1 + _; omega), hroom, List.take_succ_cons, writeAt,
          List.length_cons]
        show (false, Collector.mk _ ((capacity + numBranchesMod - (older.length - 1 -
          (capacity - (s.numBranches + 1)))) % numBranchesMod) s.refs) = _
        rw [show older.length - 1 - (capacity - (s.numBranches + 1)) =
          older.length + 1 - 1 - (capacity - (s.numBranches + 1) + 1) by omega]

theorem collectBundles_cons_fits (bndl : Bundle) (bundles : List Bundle) {s : Collector}
    (hfits : s.numBranches + bndl.branches.length ≤ capacity) :
    collectBundles capacity (bndl :: bundles) s =
      collectBundles capacity bundles (s.taken bndl.branches.reverse) := by
  have hone : collectBundleFrom capacity bndl.branches.reverse s = _ :=
    collectBundleFrom_fits bndl.branches.reverse (by rw [List.length_reverse]; exact hfits)
  have hrefs : ∀ refs, addRefs refs bndl.branches = addRefs refs bndl.branches.reverse := by
    intro refs
    funext a
    unfold addRefs
    rw [List.count_reverse]
  rw [collectBundles, collectBundle, hone]
  show collectBundles capacity bundles ⟨_, _, bndl.branches.foldl btreeIncRef s.refs⟩ = _
  rw [foldl_btreeIncRef, hrefs]
  rfl

theorem collectBundles_append (bundles bundles' : List Bundle) (s : Collector) :
    collectBundles capacity (bundles ++ bundles') s =
      match collectBundles capacity bundles s with
      | (false, s') => (false, s')
      | (true, s') => collectBundles capacity bundles' s' := by
  induction bundles generalizing s with
  | nil => rfl
  | cons bndl bundles ih =>
      rw [List.cons_append, collectBundles, collectBundles]
      cases collectBundle capacity bndl s with
      | mk fits s' =>
          cases fits with
          | false => rfl
          | true => exact ih _

theorem collectBundles_fits (bundles : List Bundle) {s : Collector}
    (hfits : s.numBranches + (newestFirst bundles).length ≤ capacity) :
    collectBundles capacity bundles s = (true, s.taken (newestFirst bundles)) := by
  induction bundles generalizing s with
  | nil => rfl
  | cons bndl bundles ih =>
      have hcons : newestFirst (bndl :: bundles) = bndl.branches.reverse ++ newestFirst bundles :=
        List.flatMap_cons
      rw [hcons, List.length_append, List.length_reverse] at hfits
      rw [collectBundles_cons_fits bndl bundles (by omega), hcons, Collector.taken_append]
      refine ih ?_
      show s.numBranches + bndl.branches.reverse.length + _ ≤ _
      rw [List.length_reverse]
      omega

/-! ## What a failed collection gives back -/

/-- The cleanup of a collection that began at `s` and ended at `s'` brings the counts of `s` back. -/
def Restores (capacity : Nat) (s s' : Collector) : Prop :=
  decRefs capacity s'.branches (s'.numBranches - s.numBranches) s.numBranches s'.refs = some s.refs

theorem restores_of_slice {s s' : Collector} {l : List Nat}
    (hslice : slice s'.branches s.numBranches (s'.numBranches - s.numBranches) = l)
    (hrefs : s'.refs = addRefs s.refs l) (hfits : s.numBranches + l.length ≤ capacity) :
    Restores capacity s s' := by
  have hlen : s'.numBranches - s.numBranches = l.length := by
    rw [← hslice, slice, List.length_map, List.length_range']
  have hinside : s.numBranches + (s'.numBranches - s.numBranches) ≤ capacity := by
    rw [hlen]
    exact hfits
  obtain ⟨refs', hdec⟩ := exists_decRefs s'.branches s'.refs hinside fun a => by
    rw [hslice, hrefs]
    exact Nat.le_add_left _ _
  have hcount := (decRefs_eq_some hdec).2
  have hback : refs' = s.refs := by
    funext a
    have hthis := hcount a
    rw [hslice, hrefs] at hthis
    exact Nat.add_right_cancel hthis
  unfold Restores
  rw [hdec, hback]

theorem restores_taken {s : Collector} {l : List Nat} (hfits : s.numBranches + l.length ≤ capacity) :
    Restores capacity s (s.taken l) := by
  refine restores_of_slice (l := l) ?_ rfl hfits
  show slice (writeAt s.branches s.numBranches l) _ (s.numBranches + l.length - _) = l
  rw [Nat.add_sub_cancel_left, slice_writeAt]

theorem Restores.length_eq {s s' : Collector} {l : List Nat} (h : Restores capacity s s')
    (hrefs : s'.refs = addRefs s.refs l) :
    s'.numBranches - s.numBranches = l.length ∧
      (s'.numBranches - s.numBranches = 0 ∨ s'.numBranches ≤ capacity) := by
  obtain ⟨hle, hcount⟩ := decRefs_eq_some h
  have hperm : (slice s'.branches s.numBranches (s'.numBranches - s.numBranches)).Perm l := by
    refine List.perm_iff_count.mpr fun a => ?_
    have hthis := hcount a
    rw [hrefs] at hthis
    exact Nat.add_left_cancel hthis
  have hlen := hperm.length_eq
  rw [slice, List.length_map, List.length_range'] at hlen
  exact ⟨hlen, hle.imp_right fun h => by omega⟩

/-- Where the array may come to its end.  Of the bundle for which there is no room, as many branches
are left behind the one that does not fit as have been taken; or there is no branch before this
bundle, more are left than taken, and not more than the array holds. -/
def Undoable (capacity start : Nat) : List Bundle → Nat → Prop
  | [], _ => True
  | bndl :: bundles, num =>
      if num + bndl.branches.length ≤ capacity then
        Undoable capacity start bundles (num + bndl.branches.length)
      else
        let room := capacity - num
        let left := bndl.branches.length - 1 - room
        left = room ∨ (num = start ∧ room < left ∧ left ≤ capacity)

theorem undoable_of_fits {start num : Nat} (bundles : List Bundle)
    (hfits : num + (newestFirst bundles).length ≤ capacity) :
    Undoable capacity start bundles num := by
  induction bundles generalizing num with
  | nil => trivial
  | cons bndl bundles ih =>
      have hcons : newestFirst (bndl :: bundles) = bndl.branches.reverse ++ newestFirst bundles :=
        List.flatMap_cons
      rw [hcons, List.length_append, List.length_reverse] at hfits
      rw [Undoable, if_pos (by omega)]
      exact ih (by omega)

private theorem word_sub {left : Nat} (hcap : capacity < numBranchesMod)
    (hleft : left < numBranchesMod) : (capacity + numBranchesMod - left) % numBranchesMod =
      if left ≤ capacity then capacity - left else capacity + numBranchesMod - left := by
  by_cases hle : left ≤ capacity
  · rw [if_pos hle, show capacity + numBranchesMod - left = capacity - left + numBranchesMod by omega,
      Nat.add_mod_right, Nat.mod_eq_of_lt (by omega)]
  · rw [if_neg hle, Nat.mod_eq_of_lt (by omega)]

/-- **The bundle for which there is no room.**  Of its `n` branches, `room` are in the array. -/
private theorem restores_overflow_iff (s : Collector) (l taken : List Nat) {n : Nat} (room : Nat)
    (hcap : capacity < numBranchesMod) (hroom : s.numBranches + l.length + room = capacity)
    (hover : room < n) (hword : n < numBranchesMod) :
    Restores capacity s ⟨writeAt s.branches s.numBranches (l ++ taken),
        (capacity + numBranchesMod - (n - 1 - room)) % numBranchesMod, addRefs s.refs l⟩ ↔
      n - 1 - room = room ∨ (l = [] ∧ room < n - 1 - room ∧ n - 1 - room ≤ capacity) := by
  have hleft : n - 1 - room < numBranchesMod := by omega
  rw [word_sub hcap hleft]
  generalize n - 1 - room = left at hleft ⊢
  constructor
  · intro h
    obtain ⟨hlen, hinside⟩ := h.length_eq rfl
    by_cases hle : left ≤ capacity
    · simp only [if_pos hle] at hlen
      by_cases hequal : left = room
      · exact Or.inl hequal
      · have hnone : l.length = 0 := by omega
        exact Or.inr ⟨List.eq_nil_of_length_eq_zero hnone, by omega, hle⟩
    · simp only [if_neg hle] at hlen hinside
      omega
  · rintro (rfl | ⟨rfl, hmore, hle⟩)
    · rw [if_pos (by omega), show capacity - left = s.numBranches + l.length by omega]
      refine restores_of_slice (l := l) ?_ rfl (by omega)
      show slice _ _ (s.numBranches + l.length - s.numBranches) = l
      rw [Nat.add_sub_cancel_left, slice_writeAt_append]
    · rw [List.length_nil] at hroom
      rw [if_pos hle]
      refine restores_of_slice (l := []) ?_ rfl (by rw [List.length_nil]; omega)
      show slice _ _ (capacity - left - s.numBranches) = []
      rw [show capacity - left - s.numBranches = 0 by omega]
      rfl

theorem collectBundles_overflows (bundles : List Bundle) {s : Collector} {l : List Nat}
    (hcap : capacity < numBranchesMod)
    (hword : ∀ b ∈ bundles, b.branches.length < numBranchesMod)
    (hle : s.numBranches + l.length ≤ capacity)
    (hover : capacity < s.numBranches + l.length + (newestFirst bundles).length) :
    ∃ s', collectBundles capacity bundles (s.taken l) = (false, s') ∧
      (Restores capacity s s' ↔
        Undoable capacity s.numBranches bundles (s.numBranches + l.length)) := by
  induction bundles generalizing l with
  | nil =>
      rw [newestFirst, List.flatMap_nil, List.length_nil] at hover
      omega
  | cons bndl bundles ih =>
      have hcons : newestFirst (bndl :: bundles) = bndl.branches.reverse ++ newestFirst bundles :=
        List.flatMap_cons
      rw [hcons, List.length_append, List.length_reverse] at hover
      by_cases hfits : s.numBranches + l.length + bndl.branches.length ≤ capacity
      · rw [collectBundles_cons_fits bndl bundles hfits, ← Collector.taken_append, Undoable,
          if_pos hfits]
        have hlen : (l ++ bndl.branches.reverse).length = l.length + bndl.branches.length := by
          rw [List.length_append, List.length_reverse]
        obtain ⟨s', hrun, hiff⟩ := ih (l := l ++ bndl.branches.reverse)
          (fun b hb => hword b (List.mem_cons_of_mem _ hb)) (by omega) (by omega)
        refine ⟨s', hrun, ?_⟩
        rw [hiff, hlen, Nat.add_assoc]
      · have hfull := collectBundleFrom_overflows bndl.branches.reverse (s := s.taken l) hle
          (by rw [List.length_reverse]; exact not_le.mp hfits)
        rw [collectBundles, collectBundle, hfull, Undoable, if_neg hfits]
        refine ⟨_, rfl, ?_⟩
        have hiff := restores_overflow_iff s l
          (bndl.branches.reverse.take (capacity - (s.numBranches + l.length)))
          (n := bndl.branches.length) (capacity - (s.numBranches + l.length)) hcap (by omega) (by omega) (hword bndl List.mem_cons_self)
        rw [writeAt_append] at hiff
        rw [List.length_reverse]
        refine hiff.trans (or_congr_right (and_congr_left fun _ => ?_))
        rw [← List.length_eq_zero_iff]
        omega

end

/-! ## The way of a lookup -/

section

variable {K : Type} [LinearOrder K]

/-- **A trunk.**  Below every pivot but the last of a node is a lower node with the bounds of the
pivot; a node without children has two pivots. -/
structure StoreFormed (nodes : NodeStore K) : Prop where
  two_le : ∀ addr node, nodes addr = some node → 2 ≤ node.numPivots
  sorted : ∀ addr node, nodes addr = some node → node.keys.Pairwise (· < ·)
  leaf : ∀ addr node i p, nodes addr = some node → node.pivots[i]? = some p → p.2.childAddr = 0 →
    i + 1 < node.numPivots → node.numPivots = 2
  child : ∀ addr node i p, nodes addr = some node → node.pivots[i]? = some p → p.2.childAddr ≠ 0 →
    i + 1 < node.numPivots → ∃ child, nodes p.2.childAddr = some child ∧
      child.height < node.height ∧ child.keys[0]? = some p.2.key ∧
      child.keys[child.numPivots - 1]? = node.keys[i + 1]?

/-- A lookup reads the node at an address and comes to one of its pivots. -/
structure Reads (nodes : NodeStore K) (faults : Faults) (tgt : Key K) (mode : FindMode) (addr : Nat)
    (node : OndiskNode K) (pivot : OndiskPivot K) : Prop where
  stored : nodes addr = some node
  pivotRead : faults.findPivot addr = false
  bundleRead : faults.firstBundle addr = false
  found : ∃ i offset, Located node tgt mode i ∧ node.pivots[i]? = some (offset, pivot)

/-- The bundles on the way of a lookup from the node at an address, in the order in which it comes to
them, and whether it comes to the end of its way. -/
inductive LookupWay (nodes : NodeStore K) (faults : Faults) (tgt : Key K) (mode : FindMode) :
    Nat → List Bundle → Bool → Prop
  | noPivot {addr : Nat} {node : OndiskNode K} (hnode : nodes addr = some node)
      (hfault : faults.findPivot addr = true ∨ faults.firstBundle addr = true) :
      LookupWay nodes faults tgt mode addr [] false
  | noChild {addr : Nat} {node : OndiskNode K} {pivot : OndiskPivot K}
      (hreads : Reads nodes faults tgt mode addr node pivot) (hchild : pivot.childAddr ≠ 0)
      (hfault : faults.childInit pivot.childAddr = true) :
      LookupWay nodes faults tgt mode addr (node.liveBundles pivot) false
  | child {addr : Nat} {node : OndiskNode K} {pivot : OndiskPivot K} {bundles : List Bundle}
      {arrives : Bool} (hreads : Reads nodes faults tgt mode addr node pivot)
      (hchild : pivot.childAddr ≠ 0) (hinit : faults.childInit pivot.childAddr = false)
      (hbelow : LookupWay nodes faults tgt mode pivot.childAddr bundles arrives) :
      LookupWay nodes faults tgt mode addr (node.liveBundles pivot ++ bundles) arrives
  | leaf {addr : Nat} {node : OndiskNode K} {pivot : OndiskPivot K}
      (hreads : Reads nodes faults tgt mode addr node pivot) (hchild : pivot.childAddr = 0) :
      LookupWay nodes faults tgt mode addr (node.liveBundles pivot)
        (!(faults.leafKeys addr || faults.copyMinKey addr || faults.copyMaxKey addr))

variable {nodes : NodeStore K} {faults : Faults} {tgt : Key K} {mode : FindMode}
  {pageSize capacity : Nat}

theorem Located.unique {node : OndiskNode K} (hsorted : node.keys.Pairwise (· < ·)) {i j : Nat}
    (hi : Located node tgt mode i) (hj : Located node tgt mode j) : i = j := by
  have hwlog : ∀ {i j : Nat}, Located node tgt mode i → Located node tgt mode j → ¬ i < j := by
    rintro i j ⟨_, high, _, hhigh, hbelow⟩ ⟨low, _, hlow, _, habove⟩ hlt
    obtain ⟨hiLt, hhighEq⟩ := List.getElem?_eq_some_iff.mp hhigh
    obtain ⟨hjLt, hlowEq⟩ := List.getElem?_eq_some_iff.mp hlow
    have hle : high ≤ low := by
      rcases Nat.lt_or_ge (i + 1) j with hstrict | hge
      · rw [← hhighEq, ← hlowEq]
        exact (List.pairwise_iff_getElem.mp hsorted _ _ hiLt hjLt hstrict).le
      · have hequal : i + 1 = j := by omega
        subst hequal
        exact (hhighEq.symm.trans hlowEq).le
    cases mode with
    | lessThan =>
        rcases habove.1 with hzero | hlowLt
        · omega
        · exact absurd (hbelow.2.trans hle) (not_le.mpr hlowLt)
    | lessThanOrEqual => exact absurd (hbelow.2.trans_le hle) (not_lt.mpr habove.1)
  have hij := hwlog hi hj
  have hji := hwlog hj hi
  omega

theorem Reads.findPivot_eq {addr : Nat} {node : OndiskNode K} {pivot : OndiskPivot K}
    (h : Reads nodes faults tgt mode addr node pivot) (hpage : 0 < pageSize)
    (hsearch : Searchable node tgt mode) : ∃ ptr handle offset,
      findPivot pageSize node .init tgt mode = some (ptr, handle) ∧
      node.pivots[ptr.num]? = some (offset, pivot) ∧ Located node tgt mode ptr.num := by
  obtain ⟨i, offset, hlocated, hpivot⟩ := h.found
  obtain ⟨ptr, handle, hfind, hloc, -, -⟩ :=
    findPivot_spec hpage OndiskNodeHandle.valid_init hsearch
  obtain rfl := Located.unique hsearch.sorted hlocated hloc
  exact ⟨ptr, handle, offset, hfind, hpivot, hloc⟩

theorem StoreFormed.child_searchable (h : StoreFormed nodes) {addr : Nat} {node : OndiskNode K}
    {pivot : OndiskPivot K} {i offset : Nat} (hnode : nodes addr = some node)
    (hlocated : Located node tgt mode i) (hpivot : node.pivots[i]? = some (offset, pivot))
    (hchild : pivot.childAddr ≠ 0) (hfirst : ∀ k, node.keys[0]? = some k → k ≤ tgt) :
    ∃ child, nodes pivot.childAddr = some child ∧ child.height < node.height ∧
      Searchable child tgt mode := by
  obtain ⟨low, high, hlow, hhigh, hbetween⟩ := hlocated
  have hlt : i + 1 < node.numPivots := by
    obtain ⟨hi, -⟩ := List.getElem?_eq_some_iff.mp hhigh
    rwa [OndiskNode.keys, List.length_map] at hi
  obtain ⟨child, hget, hheight, hchildFirst, hchildLast⟩ :=
    h.child addr node i (offset, pivot) hnode hpivot hchild hlt
  have hkey : low = pivot.key := Option.some.inj (hlow.symm.trans (getElem?_keys hpivot))
  refine ⟨child, hget, hheight, h.two_le _ _ hget, h.sorted _ _ hget, fun k hk => ?_, fun k hk => ?_⟩
  · obtain rfl := Option.some.inj (hchildFirst.symm.trans hk)
    show pivot.key ≤ tgt
    rw [← hkey]
    cases mode with
    | lessThan =>
        rcases hbetween.1 with rfl | hlowLt
        · exact hfirst low hlow
        · exact hlowLt.le
    | lessThanOrEqual => exact hbetween.1
  · obtain rfl := Option.some.inj (hhigh.symm.trans (hchildLast.symm.trans hk))
    cases mode with
    | lessThan => exact (lt_or_eq_of_le hbetween.2).imp_right fun heq => ⟨rfl, heq⟩
    | lessThanOrEqual => exact Or.inl hbetween.2

theorem exists_lookupWay (hwf : StoreFormed nodes) {addr : Nat} {node : OndiskNode K}
    (hnode : nodes addr = some node) (hsearch : Searchable node tgt mode) :
    ∃ bundles arrives, LookupWay nodes faults tgt mode addr bundles arrives := by
  by_cases hfault : faults.findPivot addr = true ∨ faults.firstBundle addr = true
  · exact ⟨_, _, .noPivot hnode hfault⟩
  · obtain ⟨hpivotRead, hbundleRead⟩ := not_or.mp hfault
    obtain ⟨ptr, handle, -, hlocated, -, -⟩ :=
      findPivot_spec Nat.one_pos OndiskNodeHandle.valid_init hsearch
    obtain ⟨low, high, hlow, hrest⟩ := id hlocated
    rw [OndiskNode.keys, List.getElem?_map] at hlow
    obtain ⟨⟨offset, pivot⟩, hpivot, -⟩ := Option.map_eq_some_iff.mp hlow
    have hreads : Reads nodes faults tgt mode addr node pivot :=
      ⟨hnode, Bool.eq_false_iff.mpr hpivotRead, Bool.eq_false_iff.mpr hbundleRead, ptr.num, offset,
        hlocated, hpivot⟩
    by_cases hchild : pivot.childAddr = 0
    · exact ⟨_, _, .leaf hreads hchild⟩
    · by_cases hinit : faults.childInit pivot.childAddr = true
      · exact ⟨_, _, .noChild hreads hchild hinit⟩
      · obtain ⟨child, hget, hheight, hchildSearch⟩ :=
          hwf.child_searchable hnode hlocated hpivot hchild hsearch.first_le
        obtain ⟨bundles, arrives, hbelow⟩ := exists_lookupWay hwf hget hchildSearch
        exact ⟨_, _, .child hreads hchild (Bool.eq_false_iff.mpr hinit) hbelow⟩
termination_by node.height

/-- How a walk ends after what the collection of its bundles has come to. -/
def WalkEnds (run : Option (CollectResult K)) (arrives : Bool) : Bool × Collector → Prop
  | (false, s') => run = some (.early .limitExceeded s')
  | (true, s') => ∃ r, run = some r ∧ r.collector = s' ∧ (r.status = .ok ↔ arrives = true)

theorem collectLoop_reads (hpage : 0 < pageSize) {addr fuel : Nat} {node : OndiskNode K}
    {pivot : OndiskPivot K} (hreads : Reads nodes faults tgt mode addr node pivot)
    (hsearch : Searchable node tgt mode) (s : Collector) :
    collectLoop pageSize nodes faults tgt mode capacity (fuel + 1) addr s =
      match collectBundles capacity (node.liveBundles pivot) s with
      | (false, s') => some (.early .limitExceeded s')
      | (true, s') =>
          if pivot.childAddr ≠ 0 then
            if faults.childInit pivot.childAddr then some (.early .ioError s')
            else collectLoop pageSize nodes faults tgt mode capacity fuel pivot.childAddr s'
          else collectLeafKeys faults addr node s' := by
  obtain ⟨ptr, handle, offset, hfind, hpivot, -⟩ := hreads.findPivot_eq hpage hsearch
  rw [collectLoop, hreads.stored]
  cases hrun : collectBundles capacity (node.liveBundles pivot) s with
  | mk fits s' =>
      cases fits with
      | false =>
          simp only [Option.bind_eq_bind, Option.bind_some, hreads.pivotRead, hreads.bundleRead, hfind,
            hpivot, Option.map_some, Bool.false_eq_true, if_false, hrun]
      | true =>
          simp only [Option.bind_eq_bind, Option.bind_some, hreads.pivotRead, hreads.bundleRead, hfind,
            hpivot, Option.map_some, Bool.false_eq_true, if_false, hrun]

theorem collectLoop_faults (hpage : 0 < pageSize) {addr fuel : Nat} {node : OndiskNode K}
    (hnode : nodes addr = some node) (hsearch : Searchable node tgt mode)
    (hfault : faults.findPivot addr = true ∨ faults.firstBundle addr = true) (s : Collector) :
    collectLoop pageSize nodes faults tgt mode capacity (fuel + 1) addr s =
      some (.early .ioError s) := by
  obtain ⟨ptr, handle, hfind, ⟨_, _, hlow, _⟩, -, -⟩ :=
    findPivot_spec hpage OndiskNodeHandle.valid_init hsearch
  rw [OndiskNode.keys, List.getElem?_map] at hlow
  obtain ⟨pivot, hpivot, -⟩ := Option.map_eq_some_iff.mp hlow
  rw [collectLoop, hnode]
  simp only [Option.bind_eq_bind, Option.bind_some, hfind, hpivot, Option.map_some]
  cases hfirst : faults.findPivot addr with
  | true => rfl
  | false =>
      rw [hfirst] at hfault
      rw [if_neg Bool.false_ne_true, if_pos (hfault.resolve_left Bool.false_ne_true)]

omit [LinearOrder K] in
theorem collectLeafKeys_ends {addr : Nat} {node : OndiskNode K} (htwo : node.numPivots = 2)
    (s : Collector) : WalkEnds (collectLeafKeys faults addr node s)
      (!(faults.leafKeys addr || faults.copyMinKey addr || faults.copyMaxKey addr)) (true, s) := by
  obtain ⟨low, hlow⟩ := Searchable.getElem?_isSome node 0 (by omega)
  obtain ⟨high, hhigh⟩ := Searchable.getElem?_isSome node 1 (by omega)
  unfold WalkEnds collectLeafKeys
  rw [if_pos htwo, hlow, hhigh]
  cases hkeys : faults.leafKeys addr with
  | true => exact ⟨_, rfl, rfl, by simp [CollectResult.early]⟩
  | false =>
      cases hmin : faults.copyMinKey addr with
      | true => exact ⟨_, rfl, rfl, by simp [CollectResult.early]⟩
      | false =>
          cases hmax : faults.copyMaxKey addr with
          | true => exact ⟨_, rfl, rfl, by simp⟩
          | false => exact ⟨_, rfl, rfl, by simp⟩

theorem collectLoop_ends (capacity : Nat) (hpage : 0 < pageSize) (hwf : StoreFormed nodes) {addr : Nat}
    {bundles : List Bundle} {arrives : Bool}
    (hway : LookupWay nodes faults tgt mode addr bundles arrives) {fuel : Nat} {node : OndiskNode K}
    (hnode : nodes addr = some node) (hfuel : node.height < fuel)
    (hsearch : Searchable node tgt mode) (s : Collector) :
    WalkEnds (collectLoop pageSize nodes faults tgt mode capacity fuel addr s) arrives
      (collectBundles capacity bundles s) := by
  obtain ⟨fuel, rfl⟩ : ∃ n, fuel = n + 1 := ⟨fuel - 1, by omega⟩
  induction hway generalizing fuel node s with
  | noPivot hstored hfault =>
      have hrun : collectLoop pageSize nodes faults tgt mode capacity (fuel + 1) _ s =
          some (.early .ioError s) := collectLoop_faults hpage hnode hsearch hfault s
      rw [hrun]
      exact ⟨_, rfl, rfl, by simp [CollectResult.early]⟩
  | @noChild addr node' pivot hreads hchild hfault =>
      obtain rfl := Option.some.inj (hreads.stored.symm.trans hnode)
      rw [collectLoop_reads hpage hreads hsearch]
      obtain ⟨fits, s'⟩ := collectBundles capacity (node'.liveBundles pivot) s
      cases fits with
      | false => rfl
      | true =>
          show WalkEnds (if pivot.childAddr ≠ 0 then _ else _) false (true, s')
          rw [if_pos hchild, if_pos hfault]
          exact ⟨_, rfl, rfl, by simp [CollectResult.early]⟩
  | @child addr node' pivot bundles arrives hreads hchild hinit hbelow ih =>
      obtain rfl := Option.some.inj (hreads.stored.symm.trans hnode)
      obtain ⟨i, offset, hlocated, hpivot⟩ := hreads.found
      obtain ⟨below, hget, hheight, hbelowSearch⟩ :=
        hwf.child_searchable hnode hlocated hpivot hchild hsearch.first_le
      obtain ⟨fuel, rfl⟩ : ∃ n, fuel = n + 1 := ⟨fuel - 1, by omega⟩
      rw [collectLoop_reads hpage hreads hsearch, collectBundles_append]
      obtain ⟨fits, s'⟩ := collectBundles capacity (node'.liveBundles pivot) s
      cases fits with
      | false => rfl
      | true =>
          show WalkEnds (if pivot.childAddr ≠ 0 then _ else _) arrives
            (collectBundles capacity bundles s')
          rw [if_pos hchild, if_neg (by rw [hinit]; exact Bool.false_ne_true)]
          exact ih hget hbelowSearch s' fuel (by omega)
  | @leaf addr node' pivot hreads hchild =>
      obtain rfl := Option.some.inj (hreads.stored.symm.trans hnode)
      obtain ⟨i, offset, ⟨_, _, _, hhigh, _⟩, hpivot⟩ := hreads.found
      have hlt : i + 1 < node'.numPivots := by
        obtain ⟨hi, -⟩ := List.getElem?_eq_some_iff.mp hhigh
        rwa [OndiskNode.keys, List.length_map] at hi
      rw [collectLoop_reads hpage hreads hsearch]
      obtain ⟨fits, s'⟩ := collectBundles capacity (node'.liveBundles pivot) s
      cases fits with
      | false => rfl
      | true =>
          show WalkEnds (if pivot.childAddr ≠ 0 then _ else _) _ (true, s')
          rw [if_neg (not_not.mpr hchild)]
          exact collectLeafKeys_ends (hwf.leaf _ _ i _ hnode hpivot hchild hlt) s'

/-- The collection succeeds and has appended the branches of the bundles on the way, with a reference
to each; or it fails, and the number of branches and the counts are those at entry. -/
def CollectsOrUndoes (pageSize : Nat) (nodes : NodeStore K) (faults : Faults) (tgt : Key K)
    (mode : FindMode) (capacity fuel rootAddr : Nat) (s : Collector) (bundles : List Bundle)
    (arrives : Bool) : Prop :=
  ∃ r, collectBranches pageSize nodes faults tgt mode capacity fuel rootAddr s = some r ∧
    (r.status = .ok ↔
      arrives = true ∧ s.numBranches + (newestFirst bundles).length ≤ capacity) ∧
    (r.status = .ok → r.collector = s.taken (newestFirst bundles)) ∧
    (r.status ≠ .ok → r.collector.numBranches = s.numBranches ∧ r.collector.refs = s.refs)

private theorem collectBranches_undone {fuel rootAddr : Nat} {s : Collector} {r : CollectResult K}
    (hrun : collectLoop pageSize nodes faults tgt mode capacity fuel rootAddr s = some r)
    (hstatus : r.status ≠ .ok) :
    Restores capacity s r.collector ↔
      ∃ r', collectBranches pageSize nodes faults tgt mode capacity fuel rootAddr s = some r' ∧
        r'.status = r.status ∧ r'.collector.numBranches = s.numBranches ∧
        r'.collector.refs = s.refs := by
  unfold collectBranches
  rw [hrun]
  simp only [Option.bind_eq_bind, Option.bind_some, if_neg hstatus]
  constructor
  · intro h
    rw [show decRefs capacity _ _ _ _ = some s.refs from h]
    exact ⟨_, rfl, rfl, rfl, rfl⟩
  · rintro ⟨r', hr', -, -, hrefs⟩
    obtain ⟨refs', hdec, hsome⟩ := Option.bind_eq_some_iff.mp hr'
    obtain rfl := Option.some.inj hsome
    exact hdec.trans (congrArg some hrefs)

private theorem collectBranches_status {fuel rootAddr : Nat} {s : Collector} {r r' : CollectResult K}
    (hrun : collectLoop pageSize nodes faults tgt mode capacity fuel rootAddr s = some r)
    (hstatus : r.status ≠ .ok)
    (hrun' : collectBranches pageSize nodes faults tgt mode capacity fuel rootAddr s = some r') :
    r'.status = r.status := by
  unfold collectBranches at hrun'
  rw [hrun] at hrun'
  simp only [Option.bind_eq_bind, Option.bind_some, if_neg hstatus] at hrun'
  obtain ⟨refs', -, hsome⟩ := Option.bind_eq_some_iff.mp hrun'
  obtain rfl := Option.some.inj hsome
  rfl

/-- **When a collection undoes itself.**  It succeeds or undoes itself exactly if the bundle for which
there is no room, if there is one, is one of those of `Undoable`. -/
theorem collectBranches_undoes_iff (hpage : 0 < pageSize) (hwf : StoreFormed nodes)
    {rootAddr fuel : Nat} {root : OndiskNode K} (hroot : nodes rootAddr = some root)
    (hfuel : root.height < fuel) (hsearch : Searchable root tgt mode) {bundles : List Bundle}
    {arrives : Bool} (hway : LookupWay nodes faults tgt mode rootAddr bundles arrives)
    (hcap : capacity < numBranchesMod) (hword : ∀ b ∈ bundles, b.branches.length < numBranchesMod)
    {s : Collector} (hle : s.numBranches ≤ capacity) :
    CollectsOrUndoes pageSize nodes faults tgt mode capacity fuel rootAddr s bundles arrives ↔
      Undoable capacity s.numBranches bundles s.numBranches := by
  have hends := collectLoop_ends capacity hpage hwf hway hroot hfuel hsearch s
  by_cases hfits : s.numBranches + (newestFirst bundles).length ≤ capacity
  · rw [collectBundles_fits bundles hfits] at hends
    obtain ⟨r, hrun, hcollector, hstatus⟩ := hends
    refine iff_of_true ?_ (undoable_of_fits bundles hfits)
    by_cases hok : r.status = .ok
    · refine ⟨r, ?_, ?_, fun _ => hcollector, fun hne => absurd hok hne⟩
      · rw [collectBranches, hrun]
        simp only [Option.bind_eq_bind, Option.bind_some, if_pos hok]
      · rw [hstatus, and_iff_left hfits]
    · have hrestores : Restores capacity s r.collector := by
        rw [hcollector]
        exact restores_taken hfits
      obtain ⟨r', hrun', hstatus', hnum, hrefs⟩ := (collectBranches_undone hrun hok).mp hrestores
      refine ⟨r', hrun', ?_, fun hok' => absurd (hstatus' ▸ hok') hok, fun _ => ⟨hnum, hrefs⟩⟩
      rw [hstatus', hstatus, and_iff_left hfits]
  · obtain ⟨s', hbundles, hiff⟩ := collectBundles_overflows bundles (s := s) (l := []) hcap hword hle
      (not_le.mp hfits)
    rw [show s.taken [] = s from rfl] at hbundles
    rw [hbundles] at hends
    have hundone := collectBranches_undone (r := .early .limitExceeded s') hends
      (by simp [CollectResult.early])
    rw [show Undoable capacity s.numBranches bundles s.numBranches ↔ _ from hiff.symm,
      show Restores capacity s s' ↔ _ from hundone]
    constructor
    · rintro ⟨r, hrun, hstatus, -, hfailed⟩
      have hnot : r.status ≠ .ok := fun hok => hfits (hstatus.mp hok).2
      obtain ⟨hnum, hrefs⟩ := hfailed hnot
      have hsame : r.status = (CollectResult.early .limitExceeded s' : CollectResult K).status :=
        collectBranches_status hends (by simp [CollectResult.early]) hrun
      exact ⟨r, hrun, hsame, hnum, hrefs⟩
    · rintro ⟨r, hrun, hstatus, hnum, hrefs⟩
      have hnot : r.status ≠ .ok := by
        rw [hstatus]
        simp [CollectResult.early]
      exact ⟨r, hrun, iff_of_false hnot fun hboth => hfits hboth.2, fun hok => absurd hok hnot,
        fun _ => ⟨hnum, hrefs⟩⟩

end

/-! ## A trunk of one leaf -/

/-- One in-flight bundle of one branch over a pivot bundle of two. -/
private def twoBundles : OndiskNode Nat where
  height := 0
  pivots := [(100, ⟨⊥, 0, 1, ⟨0, [8, 9]⟩⟩), (200, ⟨⊤, 0, 0, emptyBundle⟩)]
  inflightBundles := [⟨0, [7]⟩]

private def oneLeaf : NodeStore Nat := fun addr => if addr = 1 then some twoBundles else none

private def noFaults : Faults :=
  ⟨fun _ => false, fun _ => false, fun _ => false, fun _ => false, fun _ => false, fun _ => false⟩

private def oneEach : Collector := ⟨fun _ => 0, 0, fun _ => 1⟩

private theorem oneLeaf_eq {addr : Nat} {node : OndiskNode Nat} (h : oneLeaf addr = some node) :
    addr = 1 ∧ node = twoBundles := by
  obtain ⟨haddr, hnode⟩ := Option.ite_none_right_eq_some.mp h
  exact ⟨haddr, (Option.some.inj hnode).symm⟩

private theorem twoBundles_pivot {i : Nat} {p : Nat × OndiskPivot Nat}
    (h : twoBundles.pivots[i]? = some p) : p.2.childAddr = 0 := by
  have hmem := List.mem_of_getElem? h
  simp only [twoBundles, List.mem_cons, List.not_mem_nil, or_false] at hmem
  rcases hmem with rfl | rfl
  · rfl
  · rfl

private theorem oneLeaf_storeFormed : StoreFormed oneLeaf where
  two_le := fun addr node h => by
    obtain ⟨-, rfl⟩ := oneLeaf_eq h
    decide
  sorted := fun addr node h => by
    obtain ⟨-, rfl⟩ := oneLeaf_eq h
    decide +kernel
  leaf := fun addr node i p h hp hzero hlt => by
    obtain ⟨-, rfl⟩ := oneLeaf_eq h
    rfl
  child := fun addr node i p h hp hne hlt => by
    obtain ⟨-, rfl⟩ := oneLeaf_eq h
    exact absurd (twoBundles_pivot hp) hne

private theorem twoBundles_searchable : Searchable twoBundles (Key.user 5) .lessThanOrEqual where
  two_le := by decide
  sorted := by decide +kernel
  first_le := fun k hk => by
    cases hk
    exact bot_le
  lt_last := fun k hk => by
    cases hk
    exact Or.inl (WithBot.coe_lt_coe.mpr (WithTop.coe_lt_top 5))

private theorem twoBundles_way : LookupWay oneLeaf noFaults (Key.user 5) .lessThanOrEqual 1
    [⟨0, [7]⟩, ⟨0, [8, 9]⟩] true :=
  have hreads : Reads oneLeaf noFaults (Key.user 5) .lessThanOrEqual 1 twoBundles
      ⟨⊥, 0, 1, ⟨0, [8, 9]⟩⟩ :=
    ⟨rfl, rfl, rfl, 0, 100, ⟨⊥, ⊤, rfl, rfl, bot_le, WithBot.coe_lt_coe.mpr (WithTop.coe_lt_top 5)⟩,
      rfl⟩
  .leaf hreads rfl

/-- With room for three branches the collection succeeds. -/
theorem collectBranches_undoes_iff_three :
    CollectsOrUndoes 4096 oneLeaf noFaults (Key.user 5) .lessThanOrEqual 3 1 1 oneEach
      [⟨0, [7]⟩, ⟨0, [8, 9]⟩] true :=
  (collectBranches_undoes_iff (by decide) oneLeaf_storeFormed
    (show oneLeaf 1 = some twoBundles from rfl) (by decide) twoBundles_searchable twoBundles_way (by decide) (by decide)
    (Nat.zero_le _)).mpr (by simp [Undoable, oneEach])

/-- With room for one branch the reference to branch 7 is not given back. -/
theorem collectBranches_leaks :
    ¬ ∀ (capacity : Nat) (s : Collector), capacity < numBranchesMod → s.numBranches ≤ capacity →
      CollectsOrUndoes 4096 oneLeaf noFaults (Key.user 5) .lessThanOrEqual capacity 1 1 s
        [⟨0, [7]⟩, ⟨0, [8, 9]⟩] true := by
  intro hclaim
  obtain ⟨r, hrun, hstatus, -, hfailed⟩ := hclaim 1 oneEach (by decide) (Nat.zero_le _)
  have hnot : r.status ≠ .ok := fun hok => absurd (hstatus.mp hok).2 (by decide)
  have hrefs := congrFun (hfailed hnot).2 7
  have hseven : (collectBranches 4096 oneLeaf noFaults (Key.user 5) .lessThanOrEqual 1 1 1 oneEach).map
      (fun r => r.collector.refs 7) = some 2 := by decide +kernel
  rw [hrun] at hseven
  exact absurd (hrefs.symm.trans (Option.some.inj hseven)) (by decide)

end Trunk
end TreePass
