import TreePass.Merge.Model

/-!
# The queue of a merge iterator

The live part of `ordered_iterators` is a priority queue: sorted by key in the direction of
travel, newer inputs first among equal keys, with one flag per element that says whether the
next element has the same key.  This file has the order, the invariant of the queue and the
theorem that `advance_and_resort_min_ritor` pops exactly one tuple from it.

* `tagBefore` is the order of the tuples still to come, each tagged with the input it is from.
* `Represents` relates a queue to the sorted list of these tuples.
* `resortMinRitor_spec` is the binary insertion with its two flag repairs.
* `advance_represents` is the pop.
-/

namespace TreePass
namespace Merge

open Lib

/-- A tuple with the sequence number of the input it comes from. -/
structure Tagged (K : Type) extends Tuple K where
  seq : Nat

variable {K : Type} [LinearOrder K]

def keyLt (forwards : Bool) (a b : K) : Prop := if forwards then a < b else b < a

/-- By key in the direction of travel, then newer inputs first. -/
def tagBefore (forwards : Bool) (x y : Tagged K) : Prop :=
  keyLt forwards x.key y.key ∨ x.key = y.key ∧ y.seq < x.seq

section Order

variable {forwards : Bool}

theorem keyLt_irrefl (a : K) : ¬ keyLt forwards a a := by
  cases forwards <;> simp [keyLt]

theorem keyLt_trans {a b c : K} (hab : keyLt forwards a b) (hbc : keyLt forwards b c) :
    keyLt forwards a c := by
  cases forwards
  · exact lt_trans (α := K) hbc hab
  · exact lt_trans (α := K) hab hbc

theorem keyLt_ne {a b : K} (h : keyLt forwards a b) : a ≠ b := by
  rintro rfl
  exact keyLt_irrefl a h

variable (forwards) in
theorem keyLt_trichotomy (a b : K) : keyLt forwards a b ∨ a = b ∨ keyLt forwards b a := by
  cases forwards
  · rcases lt_trichotomy b a with h | h | h
    · exact Or.inl h
    · exact Or.inr (Or.inl h.symm)
    · exact Or.inr (Or.inr h)
  · exact lt_trichotomy a b

theorem tagBefore_irrefl (x : Tagged K) : ¬ tagBefore forwards x x := by
  rintro (h | ⟨-, h⟩)
  · exact keyLt_irrefl _ h
  · omega

theorem tagBefore_trans {x y z : Tagged K} (hxy : tagBefore forwards x y)
    (hyz : tagBefore forwards y z) : tagBefore forwards x z := by
  rcases hxy with hxy | ⟨hkey, hseq⟩ <;> rcases hyz with hyz | ⟨hkey', hseq'⟩
  · exact Or.inl (keyLt_trans hxy hyz)
  · exact Or.inl (hkey' ▸ hxy)
  · exact Or.inl (hkey ▸ hyz)
  · exact Or.inr ⟨hkey.trans hkey', by omega⟩

theorem tagBefore_asymm {x y : Tagged K} (hxy : tagBefore forwards x y) :
    ¬ tagBefore forwards y x := fun hyx => tagBefore_irrefl x (tagBefore_trans hxy hyx)

theorem tagBefore_total {x y : Tagged K} (hseq : x.seq ≠ y.seq) :
    tagBefore forwards x y ∨ tagBefore forwards y x := by
  rcases keyLt_trichotomy forwards x.key y.key with h | h | h
  · exact Or.inl (Or.inl h)
  · rcases Nat.lt_or_gt_of_ne hseq with hlt | hlt
    · exact Or.inr (Or.inr ⟨h.symm, hlt⟩)
    · exact Or.inl (Or.inr ⟨h, hlt⟩)
  · exact Or.inr (Or.inl h)

theorem key_eq_of_between {x y z : Tagged K} (hxy : x = y ∨ tagBefore forwards x y)
    (hyz : y = z ∨ tagBefore forwards y z) (hkey : x.key = z.key) : y.key = z.key := by
  rcases hxy with rfl | hxy
  · exact hkey
  · rcases hyz with rfl | hyz
    · rfl
    · rcases hxy with hxy | ⟨hxy, -⟩
      · rcases hyz with hyz | ⟨hyz, -⟩
        · exact absurd hkey (keyLt_ne (keyLt_trans hxy hyz))
        · exact hyz
      · exact hxy.symm.trans hkey

end Order

/-! ## Comparing ordered iterators -/

def OrderedIterator.tag (o : OrderedIterator K) : Tagged K := ⟨o.currTuple, o.seq⟩

def pending (forwards : Bool) (i : InputIterator K) : List (Tagged K) :=
  (i.itor.remaining forwards).map fun t => ⟨t, i.seq⟩

private theorem cmp_directed (forwards : Bool) (a b : K) :
    (if forwards then compare a b else (compare a b).swap) =
      if forwards then compare a b else compare b a := by
  cases forwards
  · simp only [Bool.false_eq_true, if_false]
    have hswap : compare b a = (compare a b).swap := Std.OrientedCmp.eq_swap
    exact hswap.symm
  · rfl

theorem bsearchComp_snd (one two : OrderedIterator K) (forwards : Bool) :
    (bsearchComp one two forwards).2 = decide (one.currKey = two.currKey) := by
  rw [Bool.eq_iff_iff]
  cases forwards
  · simp only [bsearchComp, Bool.false_eq_true, if_false, beq_iff_eq, Ordering.swap_eq_eq,
      compare_eq_iff_eq, decide_eq_true_eq]
  · simp only [bsearchComp, if_true, beq_iff_eq, compare_eq_iff_eq, decide_eq_true_eq]

theorem bsearchComp_gt_iff (one two : OrderedIterator K) (forwards : Bool) :
    (bsearchComp one two forwards).1 = .gt ↔ tagBefore forwards two.tag one.tag := by
  have hsnd := bsearchComp_snd one two forwards
  by_cases hkey : one.currKey = two.currKey
  · have hequal : (bsearchComp one two forwards).1 = compare two.seq one.seq := by
      rw [decide_eq_true hkey] at hsnd
      simp only [bsearchComp] at hsnd ⊢
      rw [if_pos hsnd]
    rw [hequal, compare_gt_iff_gt]
    constructor
    · intro h
      exact Or.inr ⟨hkey.symm, h⟩
    · rintro (h | ⟨-, h⟩)
      · exact absurd hkey.symm (keyLt_ne h)
      · exact h
  · have hdiff : (bsearchComp one two forwards).1 =
        if forwards then compare one.currKey two.currKey else compare two.currKey one.currKey := by
      rw [decide_eq_false hkey] at hsnd
      simp only [bsearchComp] at hsnd ⊢
      rw [if_neg (by simp [hsnd]), cmp_directed]
    rw [hdiff]
    have hiff : (if forwards then compare one.currKey two.currKey
        else compare two.currKey one.currKey) = .gt ↔ keyLt forwards two.currKey one.currKey := by
      cases forwards
      · simp only [Bool.false_eq_true, if_false, keyLt, compare_gt_iff_gt]
      · simp only [if_true, keyLt, compare_gt_iff_gt]
    rw [hiff]
    constructor
    · exact Or.inl
    · rintro (h | ⟨h, -⟩)
      · exact h
      · exact absurd h.symm hkey

/-! ## Flags -/

/-- Whether a list starts with an iterator whose key is `k`. -/
def headKeyIs (k : K) : List (OrderedIterator K) → Bool
  | [] => false
  | o :: _ => o.currKey == k

/-- Every flag says whether the next element has the same key. -/
def FlagsExact : List (OrderedIterator K) → Prop
  | [] => True
  | o :: rest => o.nextKeyEqual = headKeyIs o.currKey rest ∧ FlagsExact rest

def OrderedIterator.unflagged (o : OrderedIterator K) : OrderedIterator K :=
  { o with nextKeyEqual := false }

omit [LinearOrder K] in
theorem map_unflagged_setFlagAt (l : List (OrderedIterator K)) (index : Nat) (equal : Bool) :
    (setFlagAt l index equal).map OrderedIterator.unflagged = l.map OrderedIterator.unflagged := by
  induction l generalizing index with
  | nil => simp [setFlagAt]
  | cons o l ih =>
      cases index with
      | zero => simp [setFlagAt, OrderedIterator.unflagged]
      | succ index => simpa [setFlagAt] using ih index

theorem headKeyIs_setFlagAt (k : K) (l : List (OrderedIterator K)) (index : Nat) (equal : Bool) :
    headKeyIs k (setFlagAt l index equal) = headKeyIs k l := by
  cases l with
  | nil => simp [setFlagAt]
  | cons o l => cases index <;> simp [setFlagAt, headKeyIs]

theorem flagsExact_insert (o : OrderedIterator K) (after : List (OrderedIterator K))
    (prevEqual : Bool) :
    ∀ before : List (OrderedIterator K), before ≠ [] → FlagsExact (before ++ after) →
      (∀ p, before.getLast? = some p → prevEqual = decide (o.currKey = p.currKey)) →
      FlagsExact (setFlagAt (setFlagAt (before ++ o :: after) (before.length - 1) prevEqual)
        before.length (headKeyIs o.currKey after)) := by
  intro before
  induction before with
  | nil => intro h; exact absurd rfl h
  | cons p before ih =>
      intro _ hflags hprev
      obtain ⟨hp, hrest⟩ := hflags
      cases before with
      | nil =>
          have hequal := hprev p rfl
          refine ⟨?_, rfl, hrest⟩
          change prevEqual = (o.currKey == p.currKey)
          rw [hequal, Bool.eq_iff_iff]
          simp
      | cons q before =>
          have hlast : (p :: q :: before).getLast? = (q :: before).getLast? := by simp
          have htail := ih (by simp) hrest (by rw [← hlast]; exact hprev)
          refine ⟨?_, htail⟩
          change p.nextKeyEqual = headKeyIs p.currKey (setFlagAt (setFlagAt
            ((q :: before) ++ o :: after) before.length prevEqual) _ _)
          rw [headKeyIs_setFlagAt, headKeyIs_setFlagAt]
          exact hp

/-! ## The binary insertion -/

def Ahead (forwards : Bool) (a b : OrderedIterator K) : Prop := tagBefore forwards a.tag b.tag

theorem exists_split {forwards : Bool} (o : OrderedIterator K) :
    ∀ others : List (OrderedIterator K), others.Pairwise (Ahead forwards) →
      (∀ p ∈ others, p.seq ≠ o.seq) →
      ∃ before after, others = before ++ after ∧ (∀ p ∈ before, Ahead forwards p o) ∧
        ∀ p ∈ after, Ahead forwards o p := by
  intro others
  induction others with
  | nil => intro _ _; exact ⟨[], [], rfl, by simp, by simp⟩
  | cons p others ih =>
      intro hsorted hseq
      obtain ⟨hp, hrest⟩ := List.pairwise_cons.mp hsorted
      have htotal : tagBefore forwards p.tag o.tag ∨ tagBefore forwards o.tag p.tag :=
        tagBefore_total (hseq p (by simp))
      rcases htotal with hpo | hop
      · obtain ⟨before, after, hsplit, hbefore, hafter⟩ :=
          ih hrest fun q hq => hseq q (List.mem_cons_of_mem p hq)
        refine ⟨p :: before, after, by rw [hsplit]; rfl, ?_, hafter⟩
        intro q hq
        rcases List.mem_cons.mp hq with rfl | hq
        · exact hpo
        · exact hbefore q hq
      · refine ⟨[], p :: others, rfl, by simp, ?_⟩
        intro q hq
        rcases List.mem_cons.mp hq with rfl | hq
        · exact hop
        · exact tagBefore_trans hop (hp q hq)

private theorem ahead_of_le {forwards : Bool} {l : List (OrderedIterator K)}
    (hsorted : l.Pairwise (Ahead forwards)) {i j : Nat} (hij : i ≤ j) {p q : OrderedIterator K}
    (hp : l[i]? = some p) (hq : l[j]? = some q) : p = q ∨ Ahead forwards p q := by
  rcases Nat.eq_or_lt_of_le hij with rfl | hlt
  · rw [hp] at hq
    exact Or.inl (Option.some.inj hq)
  · obtain ⟨hi, rfl⟩ := List.getElem?_eq_some_iff.mp hp
    obtain ⟨hj, rfl⟩ := List.getElem?_eq_some_iff.mp hq
    exact Or.inr (List.pairwise_iff_getElem.mp hsorted i j hi hj hlt)

private theorem tag_between {forwards : Bool} {p q : OrderedIterator K}
    (h : p = q ∨ Ahead forwards p q) : p.tag = q.tag ∨ tagBefore forwards p.tag q.tag :=
  h.imp (congrArg OrderedIterator.tag) id

/-- **`bsearch_insert` is exact.**  It returns the number of elements before the key, less one,
and whether the elements on either side of the insertion point have the same key. -/
theorem bsearchInsert_eq {forwards : Bool} (o : OrderedIterator K)
    (before after : List (OrderedIterator K)) (hsorted : (before ++ after).Pairwise (Ahead forwards))
    (hbefore : ∀ p ∈ before, Ahead forwards p o) (hafter : ∀ p ∈ after, Ahead forwards o p)
    (hne : before ++ after ≠ []) :
    ∃ prevEqual, bsearchInsert o (before ++ after) forwards =
        ((before.length : Int) - 1, prevEqual, headKeyIs o.currKey after) ∧
      ∀ p, before.getLast? = some p → prevEqual = decide (o.currKey = p.currKey) := by
  let others := before ++ after
  let probe := insertProbe o others forwards
  have hprobe : ∀ i p, others[i]? = some p → probe i = bsearchComp o p forwards := by
    intro i p hp
    simp only [probe, insertProbe, hp]
  have hmark : ∀ i p, others[i]? = some p → (probe i).2 = decide (o.currKey = p.currKey) := by
    intro i p hp
    rw [hprobe i p hp, bsearchComp_snd]
  have hleft : ∀ i p, i < before.length → others[i]? = some p → Ahead forwards p o := by
    intro i p hi hp
    rw [List.getElem?_append_left hi] at hp
    exact hbefore p (List.mem_of_getElem? hp)
  have hright : ∀ i p, before.length ≤ i → others[i]? = some p → Ahead forwards o p := by
    intro i p hi hp
    rw [List.getElem?_append_right hi] at hp
    exact hafter p (List.mem_of_getElem? hp)
  have hget : ∀ i, i < others.length → ∃ p, others[i]? = some p := fun i hi =>
    ⟨others[i], List.getElem?_eq_getElem hi⟩
  have hlen : others.length = before.length + after.length := List.length_append
  have hbelongs : BelongsAt (fun i => (probe i).1 == .gt) (fun i => (probe i).2) others.length
      before.length := by
    refine ⟨by omega, ?_, ?_, ?_⟩
    · intro i hi
      obtain ⟨p, hp⟩ := hget i hi
      rw [beq_iff_eq, hprobe i p hp, bsearchComp_gt_iff]
      constructor
      · intro h
        by_contra hge
        exact tagBefore_asymm h (hright i p (by omega) hp)
      · intro hlt
        exact hleft i p hlt hp
    · intro i j hij hj hi
      obtain ⟨p, hp⟩ := hget i (by omega)
      obtain ⟨q, hq⟩ := hget j (by omega)
      rw [hmark i p hp, decide_eq_true_eq] at hi
      rw [hmark j q hq, decide_eq_true_eq]
      exact (key_eq_of_between (tag_between (ahead_of_le hsorted hij hp hq))
        (Or.inr (hleft j q hj hq)) hi.symm).symm
    · intro i j hi hij hj hmarked
      obtain ⟨p, hp⟩ := hget i (by omega)
      obtain ⟨q, hq⟩ := hget j hj
      rw [hmark j q hq, decide_eq_true_eq] at hmarked
      rw [hmark i p hp, decide_eq_true_eq]
      have hbetween := key_eq_of_between (Or.inr (hright i p hi hp))
        (tag_between (ahead_of_le hsorted hij hp hq)) hmarked
      exact hmarked.trans hbetween.symm
  have hpos : 0 < others.length := List.length_pos_iff.mpr hne
  have hresult := bsearch_eq hbelongs hpos
  refine ⟨decide (0 < before.length) && (probe (before.length - 1)).2, ?_, ?_⟩
  · have hnext : (decide (before.length < others.length) && (probe before.length).2) =
        headKeyIs o.currKey after := by
      cases hcase : after with
      | nil => simp [hlen, hcase, headKeyIs]
      | cons p after' =>
          have hp : others[before.length]? = some p := by
            simp only [others, hcase]
            simp
          rw [hmark _ p hp]
          rw [Bool.eq_iff_iff, Bool.and_eq_true, decide_eq_true_eq, decide_eq_true_eq, hlen, hcase]
          simp only [headKeyIs, beq_iff_eq, List.length_cons]
          constructor
          · rintro ⟨-, h⟩
            exact h.symm
          · intro h
            exact ⟨by omega, h.symm⟩
    rw [← hnext]
    exact hresult
  · intro p hlast
    have hp : others[before.length - 1]? = some p := by
      have hne' : before ≠ [] := by
        rintro rfl
        simp at hlast
      have hpos' : 0 < before.length := List.length_pos_iff.mpr hne'
      rw [List.getLast?_eq_getElem?] at hlast
      rw [List.getElem?_append_left (by omega)]
      exact hlast
    have hpos' : 0 < before.length := by
      rcases before with _ | ⟨q, before⟩
      · simp at hlast
      · simp
    rw [hmark _ p hp]
    simp [hpos']

/-- **The insertion keeps the queue.**  The new element lands where it belongs, and the two
repaired flags make all flags exact again. -/
theorem resortMinRitor_spec {forwards : Bool} (o : OrderedIterator K)
    (others : List (OrderedIterator K)) (pad : Bool) (hsorted : others.Pairwise (Ahead forwards))
    (hseq : ∀ p ∈ others, p.seq ≠ o.seq) (hflags : FlagsExact others) (hne : others ≠ []) :
    ∃ before after, others = before ++ after ∧
      (∀ p ∈ before, Ahead forwards p o) ∧ (∀ p ∈ after, Ahead forwards o p) ∧
      (resortMinRitor o others forwards pad).1.map OrderedIterator.unflagged =
        (before ++ o :: after).map OrderedIterator.unflagged ∧
      FlagsExact (resortMinRitor o others forwards pad).1 := by
  obtain ⟨before, after, rfl, hbefore, hafter⟩ := exists_split o others hsorted hseq
  obtain ⟨prevEqual, hsearch, hprev⟩ := bsearchInsert_eq o before after hsorted hbefore hafter hne
  refine ⟨before, after, rfl, hbefore, hafter, ?_⟩
  have hindex : (1 + ((before.length : Int) - 1)).toNat = before.length := by omega
  simp only [resortMinRitor, hsearch, hindex, List.take_left, List.drop_left]
  by_cases hfront : before.length = 0
  · obtain rfl := List.length_eq_zero_iff.mp hfront
    simp only [List.length_nil, if_true]
    exact ⟨map_unflagged_setFlagAt _ _ _, rfl, hflags⟩
  · simp only [hfront, if_false]
    refine ⟨by rw [map_unflagged_setFlagAt, map_unflagged_setFlagAt], ?_⟩
    exact flagsExact_insert o after prevEqual before
      (fun h => hfront (by rw [h]; rfl)) hflags hprev

/-! ## Queues and the tuples they still hold -/

/-- The order of a queue and of its inputs. -/
structure QueueInv (forwards : Bool) (live : List (OrderedIterator K)) : Prop where
  sorted : live.Pairwise (Ahead forwards)
  seqs : live.Pairwise fun a b => a.seq ≠ b.seq
  curr : ∀ o ∈ live, o.itor.curr = some o.currTuple
  ordered : ∀ o ∈ live, o.itor.items.Pairwise fun a b => a.key < b.key

def allPending (forwards : Bool) (live : List (OrderedIterator K)) : List (Tagged K) :=
  live.flatMap fun o => pending forwards o.toInputIterator

/-- The queue holds exactly the tuples of `L`, and `L` lists them in order. -/
structure Represents (forwards : Bool) (live : List (OrderedIterator K)) (L : List (Tagged K)) :
    Prop where
  inv : QueueInv forwards live
  flags : FlagsExact live
  sorted : L.Pairwise (tagBefore forwards)
  perm : L.Perm (allPending forwards live)

section Represents

variable {forwards : Bool} {live : List (OrderedIterator K)} {L : List (Tagged K)}

theorem queueInv_congr {live' : List (OrderedIterator K)}
    (h : live.map OrderedIterator.unflagged = live'.map OrderedIterator.unflagged)
    (hinv : QueueInv forwards live') : QueueInv forwards live := by
  have hto : ∀ l : List (OrderedIterator K),
      QueueInv forwards l ↔ QueueInv forwards (l.map OrderedIterator.unflagged) := by
    intro l
    constructor
    · rintro ⟨hsorted, hseqs, hcurr, hordered⟩
      refine ⟨List.pairwise_map.mpr hsorted, List.pairwise_map.mpr hseqs, ?_, ?_⟩
      · intro p hp
        obtain ⟨o, ho, rfl⟩ := List.mem_map.mp hp
        exact hcurr o ho
      · intro p hp
        obtain ⟨o, ho, rfl⟩ := List.mem_map.mp hp
        exact hordered o ho
    · rintro ⟨hsorted, hseqs, hcurr, hordered⟩
      exact ⟨(List.pairwise_map (f := OrderedIterator.unflagged)).mp hsorted,
        (List.pairwise_map (f := OrderedIterator.unflagged)).mp hseqs,
        fun o ho => hcurr o.unflagged (List.mem_map_of_mem ho),
        fun o ho => hordered o.unflagged (List.mem_map_of_mem ho)⟩
  rw [hto, h, ← hto]
  exact hinv

omit [LinearOrder K] in
theorem allPending_congr {live' : List (OrderedIterator K)}
    (h : live.map OrderedIterator.unflagged = live'.map OrderedIterator.unflagged) :
    allPending forwards live = allPending forwards live' := by
  have hto : ∀ l : List (OrderedIterator K),
      allPending forwards l = allPending forwards (l.map OrderedIterator.unflagged) := by
    intro l
    rw [allPending, allPending, List.flatMap_map]
    rfl
  rw [hto, h, ← hto]

omit [LinearOrder K] in
theorem pending_eq_cons {i : InputIterator K} {t : Tuple K} (h : i.itor.curr = some t) :
    pending forwards i =
      ⟨t, i.seq⟩ :: pending forwards { i with itor := i.itor.step forwards } := by
  rw [pending, Cursor.remaining_eq_cons h]
  rfl

omit [LinearOrder K] in
theorem pending_eq_nil {i : InputIterator K} (h : i.itor.curr = none) : pending forwards i = [] := by
  rw [pending, Cursor.remaining_of_none h]
  rfl

omit [LinearOrder K] in
theorem seq_of_mem_pending {i : InputIterator K} {x : Tagged K} (h : x ∈ pending forwards i) :
    x.seq = i.seq := by
  obtain ⟨t, -, rfl⟩ := List.mem_map.mp h
  rfl

theorem pending_sorted {i : InputIterator K}
    (h : i.itor.items.Pairwise fun a b => a.key < b.key) :
    (pending forwards i).Pairwise fun x y => keyLt forwards x.key y.key := by
  rw [pending, List.pairwise_map]
  refine (Cursor.pairwise_remaining h forwards).imp ?_
  intro a b hab
  cases forwards
  · simpa [keyLt] using hab
  · simpa [keyLt] using hab

theorem keyLt_of_mem_pending_step (hinv : QueueInv forwards live) {o : OrderedIterator K}
    (ho : o ∈ live) {x : Tagged K}
    (hx : x ∈ pending forwards { o.toInputIterator with itor := o.itor.step forwards }) :
    keyLt forwards o.currKey x.key := by
  have hsorted : (pending forwards o.toInputIterator).Pairwise fun x y => keyLt forwards x.key y.key :=
    pending_sorted (hinv.ordered o ho)
  rw [pending_eq_cons (hinv.curr o ho)] at hsorted
  exact (List.pairwise_cons.mp hsorted).1 x hx

theorem tag_le_of_mem_pending (hinv : QueueInv forwards live) {o : OrderedIterator K} (ho : o ∈ live)
    {x : Tagged K} (hx : x ∈ pending forwards o.toInputIterator) :
    o.tag = x ∨ tagBefore forwards o.tag x := by
  rw [pending_eq_cons (hinv.curr o ho)] at hx
  rcases List.mem_cons.mp hx with rfl | hx
  · exact Or.inl rfl
  · exact Or.inr (Or.inl (keyLt_of_mem_pending_step hinv ho hx))

theorem head_represents {o : OrderedIterator K} {others : List (OrderedIterator K)}
    (hrep : Represents forwards (o :: others) L) : ∃ L', L = o.tag :: L' := by
  have ho : o ∈ o :: others := by simp
  have hmem : o.tag ∈ L := by
    rw [hrep.perm.mem_iff, allPending, List.flatMap_cons, pending_eq_cons (hrep.inv.curr o ho)]
    exact List.mem_cons_self
  cases L with
  | nil => simp at hmem
  | cons x L' =>
      refine ⟨L', ?_⟩
      have hx : x ∈ allPending forwards (o :: others) := hrep.perm.mem_iff.mp (by simp)
      obtain ⟨o', ho', hx'⟩ := List.mem_flatMap.mp hx
      have hle := tag_le_of_mem_pending hrep.inv ho' hx'
      have hle' : o.tag = x ∨ tagBefore forwards o.tag x := by
        rcases List.mem_cons.mp ho' with rfl | hmem'
        · exact hle
        · have hahead : tagBefore forwards o.tag o'.tag :=
            (List.pairwise_cons.mp hrep.inv.sorted).1 o' hmem'
          rcases hle with rfl | hle
          · exact Or.inr hahead
          · exact Or.inr (tagBefore_trans hahead hle)
      rcases hle' with rfl | hbefore
      · rfl
      · rcases List.mem_cons.mp hmem with heq | hlater
        · rw [heq]
        · exact absurd ((List.pairwise_cons.mp hrep.sorted).1 _ hlater) (tagBefore_asymm hbefore)

theorem represents_nil_iff (hrep : Represents forwards live L) : live = [] ↔ L = [] := by
  constructor
  · rintro rfl
    exact List.perm_nil.mp hrep.perm
  · rintro rfl
    cases live with
    | nil => rfl
    | cons o others =>
        obtain ⟨L', hL⟩ := head_represents hrep
        cases hL

theorem tail_perm {o : OrderedIterator K} {others : List (OrderedIterator K)} {L' : List (Tagged K)}
    (hrep : Represents forwards (o :: others) (o.tag :: L')) :
    L'.Perm (pending forwards { o.toInputIterator with itor := o.itor.step forwards } ++
      allPending forwards others) := by
  have h := hrep.perm
  rw [allPending, List.flatMap_cons, pending_eq_cons (hrep.inv.curr o (by simp))] at h
  exact List.Perm.cons_inv h

theorem second_mem {o second : OrderedIterator K} {others : List (OrderedIterator K)}
    {L' : List (Tagged K)}
    (hrep : Represents forwards (o :: second :: others) (o.tag :: L')) : second.tag ∈ L' := by
  rw [(tail_perm hrep).mem_iff]
  refine List.mem_append.mpr (Or.inr (List.mem_flatMap.mpr ⟨second, by simp, ?_⟩))
  rw [pending_eq_cons (hrep.inv.curr second (by simp))]
  exact List.mem_cons_self

theorem second_le {o : OrderedIterator K} {others : List (OrderedIterator K)} {L' : List (Tagged K)}
    (hrep : Represents forwards (o :: others) (o.tag :: L')) {x : Tagged K} (hx : x ∈ L')
    (hkey : x.key = o.currKey) : ∃ second others', others = second :: others' ∧
      (second.tag = x ∨ tagBefore forwards second.tag x) := by
  rcases List.mem_append.mp ((tail_perm hrep).mem_iff.mp hx) with hown | hother
  · exact absurd hkey.symm (keyLt_ne (keyLt_of_mem_pending_step hrep.inv (by simp) hown))
  · obtain ⟨p, hp, hx'⟩ := List.mem_flatMap.mp hother
    have hle := tag_le_of_mem_pending hrep.inv (List.mem_cons_of_mem o hp) hx'
    cases others with
    | nil => simp at hp
    | cons second others' =>
        refine ⟨second, others', rfl, ?_⟩
        rcases List.mem_cons.mp hp with rfl | hmem
        · exact hle
        · have hrest := (List.pairwise_cons.mp hrep.inv.sorted).2
          have hlt : tagBefore forwards second.tag p.tag := (List.pairwise_cons.mp hrest).1 p hmem
          rcases hle with rfl | hle
          · exact Or.inr hlt
          · exact Or.inr (tagBefore_trans hlt hle)

theorem second_eq {o second : OrderedIterator K} {others : List (OrderedIterator K)} {x : Tagged K}
    {rest : List (Tagged K)}
    (hrep : Represents forwards (o :: second :: others) (o.tag :: x :: rest))
    (hkey : x.key = o.currKey) : second.tag = x := by
  obtain ⟨second', others', heq, hle⟩ := second_le hrep (by simp) hkey
  obtain ⟨rfl, rfl⟩ := List.cons.inj heq
  have hrest := (List.pairwise_cons.mp hrep.sorted).2
  rcases hle with h | h
  · exact h
  · rcases List.mem_cons.mp (second_mem hrep) with h' | h'
    · exact h'
    · exact absurd ((List.pairwise_cons.mp hrest).1 _ h') (tagBefore_asymm h)

theorem head_flag_represents {o : OrderedIterator K} {others : List (OrderedIterator K)}
    {L' : List (Tagged K)} (hrep : Represents forwards (o :: others) (o.tag :: L')) :
    o.nextKeyEqual = true ↔ ∃ x rest, L' = x :: rest ∧ x.key = o.currKey := by
  rw [hrep.flags.1]
  constructor
  · intro hsame
    cases others with
    | nil => simp [headKeyIs] at hsame
    | cons second others' =>
        have hkey : second.currKey = o.currKey := by simpa [headKeyIs] using hsame
        have hmem := second_mem hrep
        cases L' with
        | nil => simp at hmem
        | cons x rest =>
            refine ⟨x, rest, rfl, ?_⟩
            obtain ⟨hfirst, hlater⟩ := List.pairwise_cons.mp hrep.sorted
            have hx : x = second.tag ∨ tagBefore forwards x second.tag := by
              rcases List.mem_cons.mp hmem with h | h
              · exact Or.inl h.symm
              · exact Or.inr ((List.pairwise_cons.mp hlater).1 _ h)
            exact (key_eq_of_between (Or.inr (hfirst x (by simp))) hx hkey.symm).trans hkey
  · rintro ⟨x, rest, rfl, hkey⟩
    obtain ⟨second, others', rfl, hle⟩ := second_le hrep (by simp) hkey
    have hahead : tagBefore forwards o.tag second.tag :=
      (List.pairwise_cons.mp hrep.inv.sorted).1 second (by simp)
    have hsame : second.currKey = o.currKey :=
      (key_eq_of_between (Or.inr hahead) hle hkey.symm).trans hkey
    simpa [headKeyIs] using hsame

/-! ## The pop -/

/-- Everything but the queue and its flags is left alone. -/
structure Frame (it it' : MergeIterator K) : Prop where
  mergeMessages : it'.mergeMessages = it.mergeMessages
  finalizeUpdates : it'.finalizeUpdates = it.finalizeUpdates
  emitDeletes : it'.emitDeletes = it.emitDeletes
  canPrev : it'.canPrev = it.canPrev
  canNext : it'.canNext = it.canNext
  forwards : it'.forwards = it.forwards

omit [LinearOrder K] in
theorem Frame.refl (it : MergeIterator K) : Frame it it := ⟨rfl, rfl, rfl, rfl, rfl, rfl⟩

omit [LinearOrder K] in
theorem Frame.trans {a b c : MergeIterator K} (hab : Frame a b) (hbc : Frame b c) : Frame a c where
  mergeMessages := hbc.mergeMessages.trans hab.mergeMessages
  finalizeUpdates := hbc.finalizeUpdates.trans hab.finalizeUpdates
  emitDeletes := hbc.emitDeletes.trans hab.emitDeletes
  canPrev := hbc.canPrev.trans hab.canPrev
  canNext := hbc.canNext.trans hab.canNext
  forwards := hbc.forwards.trans hab.forwards

theorem advance_frame (it : MergeIterator K) : Frame it (advanceAndResortMinRitor it) := by
  rw [advanceAndResortMinRitor]
  split
  · exact Frame.refl it
  · dsimp only
    split
    · exact ⟨rfl, rfl, rfl, rfl, rfl, rfl⟩
    · split <;> exact ⟨rfl, rfl, rfl, rfl, rfl, rfl⟩

/-- **The pop.**  `advance_and_resort_min_ritor` removes exactly the first of the remaining
tuples and keeps the queue. -/
theorem advance_represents {it : MergeIterator K} {t : Tagged K}
    (hrep : Represents it.forwards it.live (t :: L)) :
    Represents it.forwards (advanceAndResortMinRitor it).live L := by
  cases hlive : it.live with
  | nil =>
      have := (represents_nil_iff hrep).mp hlive
      cases this
  | cons o others =>
      rw [hlive] at hrep
      obtain ⟨L', hL⟩ := head_represents hrep
      obtain ⟨rfl, rfl⟩ := List.cons.inj hL
      obtain ⟨⟨hsorted, hseqs, hcurr, hordered⟩, ⟨-, hflags⟩, hLsorted, hperm⟩ := hrep
      obtain ⟨-, hothers⟩ := List.pairwise_cons.mp hsorted
      obtain ⟨hseq, hseqs'⟩ := List.pairwise_cons.mp hseqs
      have hLsorted' := (List.pairwise_cons.mp hLsorted).2
      have hrestInv : QueueInv it.forwards others :=
        ⟨hothers, hseqs', fun p hp => hcurr p (List.mem_cons_of_mem o hp),
          fun p hp => hordered p (List.mem_cons_of_mem o hp)⟩
      rw [allPending, List.flatMap_cons, pending_eq_cons (hcurr o (by simp))] at hperm
      have hperm' : L.Perm (pending it.forwards
          { o.toInputIterator with itor := o.itor.step it.forwards } ++
            allPending it.forwards others) := List.Perm.cons_inv hperm
      rw [advanceAndResortMinRitor, hlive]
      dsimp only
      cases hnext : (o.itor.step it.forwards).curr with
      | none =>
          -- The input is exhausted and leaves the queue.
          have hnil : pending it.forwards
              { o.toInputIterator with itor := o.itor.step it.forwards } = [] :=
            pending_eq_nil hnext
          rw [hnil, List.nil_append] at hperm'
          exact ⟨hrestInv, hflags, hLsorted', hperm'⟩
      | some u =>
          let input : InputIterator K :=
            { itor := o.itor.step it.forwards, seq := o.seq, nextKeyEqual := false }
          let o' : OrderedIterator K := setCurrOrderedIterator input u
          have hcurr' : o'.itor.curr = some o'.currTuple := hnext
          have hordered' : o'.itor.items.Pairwise fun a b => a.key < b.key := by
            have h := hordered o (by simp)
            rw [← Cursor.step_items (c := o.itor) it.forwards] at h
            exact h
          have hperm'' : L.Perm (allPending it.forwards (o' :: others)) := hperm'
          change Represents it.forwards (if others = [] then _ else _ : MergeIterator K).live L
          by_cases hempty : others = []
          · subst hempty
            rw [if_pos rfl]
            refine ⟨⟨List.pairwise_singleton _ _, List.pairwise_singleton _ _, ?_, ?_⟩,
              ⟨rfl, trivial⟩, hLsorted', hperm''⟩
            · intro p hp
              obtain rfl := List.mem_singleton.mp hp
              exact hcurr'
            · intro p hp
              obtain rfl := List.mem_singleton.mp hp
              exact hordered'
          · rw [if_neg hempty]
            have hseq' : ∀ p ∈ others, p.seq ≠ o'.seq := fun p hp h => hseq p hp h.symm
            obtain ⟨before, after, rfl, hbefore, hafter, hplace, hexact⟩ :=
              resortMinRitor_spec o' others it.pad hothers hseq' hflags hempty
            have hinsert : (before ++ o' :: after).Perm (o' :: (before ++ after)) :=
              List.perm_middle
            have hinv : QueueInv it.forwards (before ++ o' :: after) := by
              obtain ⟨hb, ha, hba⟩ := List.pairwise_append.mp hothers
              refine ⟨?_, ?_, ?_, ?_⟩
              · refine List.pairwise_append.mpr ⟨hb, List.pairwise_cons.mpr ⟨hafter, ha⟩, ?_⟩
                intro p hp q hq
                rcases List.mem_cons.mp hq with rfl | hq
                · exact hbefore p hp
                · exact hba p hp q hq
              · refine (hinsert.pairwise_iff fun h => Ne.symm h).mpr ?_
                exact List.pairwise_cons.mpr ⟨fun p hp h => hseq' p hp h.symm, hseqs'⟩
              · intro p hp
                rcases List.mem_cons.mp (hinsert.mem_iff.mp hp) with rfl | hp
                · exact hcurr'
                · exact hrestInv.curr p hp
              · intro p hp
                rcases List.mem_cons.mp (hinsert.mem_iff.mp hp) with rfl | hp
                · exact hordered'
                · exact hrestInv.ordered p hp
            refine ⟨queueInv_congr hplace hinv, hexact, hLsorted', ?_⟩
            rw [allPending_congr hplace]
            exact hperm''.trans (hinsert.symm.flatMap_right _)

end Represents
end Merge
end TreePass
