import TreePass.Platform.ShmHeap

/-!
# What the calls on the shared heap keep

`ShmInv` relates the control block to the live fragments: these and the tracked fragments lie behind
the control block and before the next address, tracked fragments are apart, a live fragment is
either apart from a tracked one or at its start, and a tracked fragment in use has a live one.

There is a lemma for each way the heap changes: `ShmInv.recycle`, `ShmInv.bump`, `ShmInv.track`,
`ShmInv.undo`, `ShmInv.forget` and `ShmInv.giveBack`.
-/

namespace TreePass
namespace Platform

open Lib

/-! ## The invariant -/

def LargeFragInfo.region (frag : LargeFragInfo) : Region where
  base := frag.fragAddr
  size := frag.fragSize

def LargeFragInfo.inUse (frag : LargeFragInfo) : Bool :=
  decide (frag.fragAddr ≠ 0 ∧ frag.fragFreedByPid = 0)

def Tracked (frags : List LargeFragInfo) (i : Nat) (frag : LargeFragInfo) : Prop :=
  frags[i]? = some frag ∧ frag.fragAddr ≠ 0

/-- A fragment in the part of the segment that has been handed out, at a cache line. -/
structure InHeap (seg : ShmSegment) (next : Nat) (r : Region) : Prop where
  aligned : r.base % cachelineSize = 0
  first : seg.first ≤ r.base
  last : r.last ≤ next

/-- A live fragment and a tracked one: apart, or the first is what the second is used for. -/
def Uses (frag : LargeFragInfo) (r : Region) : Prop :=
  frag.region.Apart r ∨
    (frag.fragFreedByPid = 0 ∧ r.base = frag.fragAddr ∧ r.size ≤ frag.fragSize)

/-- The fragment allocated last is the last one. -/
structure LastOk (seg : ShmSegment) (frags : List LargeFragInfo) (live : List Region)
    (next last : Nat) : Prop where
  aligned : last % cachelineSize = 0
  first : seg.first ≤ last
  lt_next : last < next
  live : ∀ r ∈ live, r.last ≤ last ∨ r.base = last
  frag : ∀ i frag, Tracked frags i frag →
    frag.region.last ≤ last ∨ (frag.fragAddr = last ∧ frag.region.last = next)

/-- What the invariant says of the table. -/
structure TableInv (seg : ShmSegment) (frags : List LargeFragInfo) (live : List Region)
    (next hip inuse : Nat) : Prop where
  inHeap : ∀ i frag, Tracked frags i frag → InHeap seg next frag.region
  large : ∀ i frag, Tracked frags i frag → seg.largeFragSize ≤ frag.fragSize
  hip : ∀ i frag, Tracked frags i frag → frag.fragAddr ≤ hip
  tid : ∀ i frag, Tracked frags i frag → frag.fragFreedByPid = 0 → frag.fragFreedByTid = 0
  apart : ∀ i j frag frag', i ≠ j → Tracked frags i frag → Tracked frags j frag' →
    frag.region.Apart frag'.region
  uses : ∀ i frag, Tracked frags i frag → ∀ r ∈ live, Uses frag r
  owner : ∀ i frag, Tracked frags i frag → frag.fragFreedByPid = 0 →
    ∃ r ∈ live, r.base = frag.fragAddr
  inuse : inuse = frags.countP LargeFragInfo.inUse

/-- **The invariant of the shared heap.** -/
structure ShmInv (seg : ShmSegment) (s : ShmState) : Prop where
  aligned : s.shm.shmNext % cachelineSize = 0
  first_le : seg.first ≤ s.shm.shmNext
  le_end : s.shm.shmNext ≤ seg.shmEnd
  total : s.shm.totalBytes = seg.size
  used : s.shm.usedBytes = s.shm.shmNext - seg.first
  free : s.shm.freeBytes = seg.shmEnd - s.shm.shmNext
  inHeap : ∀ r ∈ s.live, InHeap seg s.shm.shmNext r
  positive : ∀ r ∈ s.live, 0 < r.size
  apart : s.live.Pairwise Region.Apart
  table : TableInv seg s.shm.shmLargeFrags s.live s.shm.shmNext s.shm.shmLargeFragHip
    s.shm.nlargeFragsInuse
  last : s.shm.shmLastAlloc ≠ 0 →
    LastOk seg s.shm.shmLargeFrags s.live s.shm.shmNext s.shm.shmLastAlloc

theorem first_pos (seg : ShmSegment) : 0 < seg.first := by
  have := seg.start_pos
  unfold ShmSegment.first
  omega

theorem first_aligned (seg : ShmSegment) : seg.first % cachelineSize = 0 := by
  have h1 := seg.start_aligned
  have h2 := seg.ctrlblock_aligned
  unfold ShmSegment.first cachelineSize at *
  omega

theorem first_le_shmEnd (seg : ShmSegment) : seg.first ≤ seg.shmEnd := by
  have := seg.ctrlblock_le
  unfold ShmSegment.first ShmSegment.shmEnd
  omega

theorem shmInv_create (seg : ShmSegment) (memory : Nat → UInt8) :
    ShmInv seg { shm := shmCreate seg memory, live := [] } := by
  have hnone : ∀ i frag, ¬ Tracked (List.replicate shmNumLargeFrags emptyFrag) i frag := by
    rintro i frag ⟨hget, haddr⟩
    obtain rfl := List.eq_of_mem_replicate (List.mem_of_getElem? hget)
    exact haddr rfl
  have hle := first_le_shmEnd seg
  constructor
  · exact first_aligned seg
  · exact Nat.le_refl _
  · exact hle
  · rfl
  · exact (Nat.sub_self _).symm
  · unfold ShmSegment.shmEnd at hle ⊢
    unfold ShmSegment.first at hle
    simp only [shmCreate]
    omega
  · simp
  · simp
  · exact List.Pairwise.nil
  · constructor
    · exact fun i frag h => absurd h (hnone i frag)
    · exact fun i frag h => absurd h (hnone i frag)
    · exact fun i frag h => absurd h (hnone i frag)
    · exact fun i frag h => absurd h (hnone i frag)
    · exact fun i j frag frag' _ h => absurd h (hnone i frag)
    · exact fun i frag h => absurd h (hnone i frag)
    · exact fun i frag h => absurd h (hnone i frag)
    · simp [shmCreate, LargeFragInfo.inUse, emptyFrag, List.countP_replicate]
  · intro h
    exact absurd rfl h

theorem ShmInv.withMemory {seg : ShmSegment} {s : ShmState} (h : ShmInv seg s)
    (memory : Nat → UInt8) : ShmInv seg (s.withMemory memory) :=
  ⟨h.aligned, h.first_le, h.le_end, h.total, h.used, h.free, h.inHeap, h.positive, h.apart, h.table,
    h.last⟩

/-! ## The loops over the table -/

theorem findFreeFrag_spec (size : Nat) (frags : List LargeFragInfo)
    (htid : ∀ i frag, Tracked frags i frag → frag.fragFreedByPid = 0 → frag.fragFreedByTid = 0) :
    ∃ found, findFreeFrag size frags = some found ∧ ∀ i, found = some i →
      ∃ frag, Tracked frags i frag ∧ size ≤ frag.fragSize ∧ frag.fragFreedByPid ≠ 0 := by
  induction frags with
  | nil => exact ⟨none, rfl, nofun⟩
  | cons frag frags ih =>
      obtain ⟨found, hfind, hspec⟩ := ih fun i frag h => htid (i + 1) frag h
      -- The slot is passed over.
      have hskip : ∀ i, found.map (· + 1) = some i → ∃ frag', Tracked (frag :: frags) i frag' ∧
          size ≤ frag'.fragSize ∧ frag'.fragFreedByPid ≠ 0 := by
        intro i hi
        obtain ⟨j, hj, rfl⟩ := Option.map_eq_some_iff.mp hi
        obtain ⟨frag', htracked, h⟩ := hspec j hj
        exact ⟨frag', htracked, h⟩
      unfold findFreeFrag
      by_cases hsmall : frag.fragAddr = 0 ∨ frag.fragSize < size
      · rw [if_pos hsmall, hfind]
        exact ⟨_, rfl, hskip⟩
      · rw [if_neg hsmall]
        by_cases hpid : frag.fragFreedByPid = 0
        · have htracked : Tracked (frag :: frags) 0 frag := ⟨rfl, fun h => hsmall (Or.inl h)⟩
          rw [if_pos hpid, if_pos (htid 0 frag htracked hpid), hfind]
          exact ⟨_, rfl, hskip⟩
        · rw [if_neg hpid]
          refine ⟨some 0, rfl, ?_⟩
          intro i hi
          obtain rfl := Option.some.inj hi
          exact ⟨frag, ⟨rfl, fun h => hsmall (Or.inl h)⟩, by omega, hpid⟩

theorem findEmptyFrag_spec {addr : Nat} (frags : List LargeFragInfo)
    (hnew : ∀ i frag, Tracked frags i frag → frag.fragAddr ≠ addr) :
    ∃ found, findEmptyFrag addr frags = some found ∧ ∀ i, found = some i →
      ∃ frag, frags[i]? = some frag ∧ frag.fragAddr = 0 := by
  induction frags with
  | nil => exact ⟨none, rfl, nofun⟩
  | cons frag frags ih =>
      obtain ⟨found, hfind, hspec⟩ := ih fun i frag h => hnew (i + 1) frag h
      unfold findEmptyFrag
      by_cases hempty : frag.fragAddr = 0
      · rw [if_pos hempty]
        refine ⟨some 0, rfl, ?_⟩
        intro i hi
        obtain rfl := Option.some.inj hi
        exact ⟨frag, rfl, hempty⟩
      · rw [if_neg hempty, if_neg (hnew 0 frag ⟨rfl, hempty⟩), hfind]
        refine ⟨_, rfl, ?_⟩
        intro i hi
        obtain ⟨j, hj, rfl⟩ := Option.map_eq_some_iff.mp hi
        exact hspec j hj

theorem tracked_set {frags : List LargeFragInfo} {i j : Nat} {frag frag' : LargeFragInfo}
    (h : Tracked (frags.set i frag') j frag) :
    (j = i ∧ frag = frag') ∨ (j ≠ i ∧ Tracked frags j frag) := by
  obtain ⟨hget, haddr⟩ := h
  by_cases hij : i = j
  · subst hij
    rw [List.getElem?_set_self'] at hget
    obtain ⟨_, _, rfl⟩ := Option.map_eq_some_iff.mp hget
    exact Or.inl ⟨rfl, rfl⟩
  · rw [List.getElem?_set_ne hij] at hget
    exact Or.inr ⟨Ne.symm hij, hget, haddr⟩

theorem countP_set_inUse {frags : List LargeFragInfo} {i : Nat} {frag : LargeFragInfo}
    (frag' : LargeFragInfo) (hget : frags[i]? = some frag) :
    (frags.set i frag').countP LargeFragInfo.inUse + (if frag.inUse = true then 1 else 0) =
      frags.countP LargeFragInfo.inUse + if frag'.inUse = true then 1 else 0 := by
  obtain ⟨hi, hfrag⟩ := List.getElem?_eq_some_iff.mp hget
  have hset := List.countP_set (p := LargeFragInfo.inUse) (a := frag') hi
  have hpos : frag.inUse = true → 0 < frags.countP LargeFragInfo.inUse := by
    intro h
    exact List.countP_pos_iff.mpr ⟨frag, List.mem_of_getElem? hget, h⟩
  rw [hfrag] at hset
  rw [hset]
  by_cases hfrag : frag.inUse = true
  · have := hpos hfrag
    rw [if_pos hfrag]
    omega
  · rw [if_neg hfrag]
    omega

/-! ## Regions -/

theorem not_apart_of_base_eq {r r' : Region} (hr : 0 < r.size) (hr' : 0 < r'.size)
    (hbase : r.base = r'.base) : ¬ r.Apart r' := by
  intro h
  simp only [Region.Apart, Region.last] at h
  omega

theorem apart_erase {live : List Region} (h : live.Pairwise Region.Apart) {r : Region}
    (hr : r ∈ live) :
    (∀ r' ∈ live.erase r, r.Apart r') ∧ (live.erase r).Pairwise Region.Apart := by
  have hperm := List.perm_cons_erase hr
  have hpair := (hperm.pairwise_iff (fun hab => Region.Apart.symm hab)).mp h
  exact List.pairwise_cons.mp hpair

theorem apart_of_ne {live : List Region} (h : live.Pairwise Region.Apart) {r r' : Region}
    (hr : r ∈ live) (hr' : r' ∈ live) (hne : r' ≠ r) : r.Apart r' :=
  (apart_erase h hr).1 r' ((List.mem_erase_of_ne hne).mpr hr')

/-! ## Allocating -/

theorem ShmInv.recycle {seg : ShmSegment} {s : ShmState} (h : ShmInv seg s) (caller : Caller)
    {size i : Nat} {frag : LargeFragInfo} (hwm : Nat) (hsize : 0 < size)
    (htracked : Tracked s.shm.shmLargeFrags i frag) (hle : size ≤ frag.fragSize)
    (hfree : frag.fragFreedByPid ≠ 0) :
    ShmInv seg
      { shm := { s.shm with
          shmLargeFrags := s.shm.shmLargeFrags.set i { frag with
            fragAllocatedToPid := caller.pid
            fragAllocatedToTid := caller.tid
            fragFreedByPid := 0
            fragFreedByTid := 0 }
          nlargeFragsInuse := s.shm.nlargeFragsInuse + 1
          nlargeFragsInuseHwm := hwm }
        live := { base := frag.fragAddr, size := size } :: s.live } := by
  have ht := h.table
  have hregion := ht.inHeap i frag htracked
  have hlast := hregion.last
  simp only [LargeFragInfo.region, Region.last] at hlast
  -- A free fragment is apart from all that is live.
  have hapart : ∀ r ∈ s.live, frag.region.Apart r := by
    intro r hr
    rcases ht.uses i frag htracked r hr with hleft | ⟨hpid, _⟩
    · exact hleft
    · exact absurd hpid hfree
  refine ⟨h.aligned, h.first_le, h.le_end, h.total, h.used, h.free, ?_, ?_, ?_, ?_, ?_⟩
  · intro r hr
    rcases List.mem_cons.mp hr with rfl | hmem
    · exact ⟨hregion.aligned, hregion.first, by simp only [Region.last]; omega⟩
    · exact h.inHeap r hmem
  · intro r hr
    rcases List.mem_cons.mp hr with rfl | hmem
    · exact hsize
    · exact h.positive r hmem
  · exact List.pairwise_cons.mpr ⟨fun r hr => (hapart r hr).shrink hle, h.apart⟩
  · constructor
    · intro j frag' hj
      rcases tracked_set hj with ⟨_, rfl⟩ | ⟨_, hj⟩
      · exact hregion
      · exact ht.inHeap j frag' hj
    · intro j frag' hj
      rcases tracked_set hj with ⟨_, rfl⟩ | ⟨_, hj⟩
      · exact ht.large i frag htracked
      · exact ht.large j frag' hj
    · intro j frag' hj
      rcases tracked_set hj with ⟨_, rfl⟩ | ⟨_, hj⟩
      · exact ht.hip i frag htracked
      · exact ht.hip j frag' hj
    · intro j frag' hj hpid
      rcases tracked_set hj with ⟨_, rfl⟩ | ⟨_, hj⟩
      · rfl
      · exact ht.tid j frag' hj hpid
    · intro j k frag₁ frag₂ hjk hj hk
      rcases tracked_set hj with ⟨rfl, rfl⟩ | ⟨_, hj'⟩
      · rcases tracked_set hk with ⟨rfl, _⟩ | ⟨_, hk'⟩
        · exact absurd rfl hjk
        · exact ht.apart j k frag frag₂ hjk htracked hk'
      · rcases tracked_set hk with ⟨rfl, rfl⟩ | ⟨_, hk'⟩
        · exact ht.apart j k frag₁ frag hjk hj' htracked
        · exact ht.apart j k frag₁ frag₂ hjk hj' hk'
    · intro j frag' hj r hr
      rcases tracked_set hj with ⟨_, rfl⟩ | ⟨hji, hj⟩
      · rcases List.mem_cons.mp hr with rfl | hmem
        · exact Or.inr ⟨rfl, rfl, hle⟩
        · exact Or.inl (hapart r hmem)
      · rcases List.mem_cons.mp hr with rfl | hmem
        · exact Or.inl ((ht.apart i j frag frag' (Ne.symm hji) htracked hj).shrink hle).symm
        · exact ht.uses j frag' hj r hmem
    · intro j frag' hj hpid
      rcases tracked_set hj with ⟨_, rfl⟩ | ⟨_, hj⟩
      · exact ⟨_, List.mem_cons_self, rfl⟩
      · obtain ⟨r, hr, hbase⟩ := ht.owner j frag' hj hpid
        exact ⟨r, List.mem_cons_of_mem _ hr, hbase⟩
    · have hcount := countP_set_inUse ({ frag with
        fragAllocatedToPid := caller.pid
        fragAllocatedToTid := caller.tid
        fragFreedByPid := 0
        fragFreedByTid := 0 } : LargeFragInfo) htracked.1
      have haddr := htracked.2
      have hinuse := ht.inuse
      simp only [LargeFragInfo.inUse, hfree, haddr, ne_eq, not_false_eq_true, and_false, and_self,
        decide_false, decide_true, Bool.false_eq_true, if_false, if_true] at hcount
      show s.shm.nlargeFragsInuse + 1 = _
      rw [hinuse]
      exact hcount.symm
  · intro hne
    have hl := h.last hne
    refine ⟨hl.aligned, hl.first, hl.lt_next, ?_, ?_⟩
    · intro r hr
      rcases List.mem_cons.mp hr with rfl | hmem
      · rcases hl.frag i frag htracked with hbefore | ⟨haddr, _⟩
        · simp only [LargeFragInfo.region, Region.last] at hbefore ⊢
          exact Or.inl (by omega)
        · exact Or.inr haddr
      · exact hl.live r hmem
    · intro j frag' hj
      rcases tracked_set hj with ⟨_, rfl⟩ | ⟨_, hj⟩
      · exact hl.frag i frag htracked
      · exact hl.frag j frag' hj

theorem ShmInv.bump {seg : ShmSegment} {s : ShmState} (h : ShmInv seg s) {size hwm : Nat}
    (hsize : 0 < size) (haligned : size % cachelineSize = 0)
    (hroom : s.shm.shmNext + size ≤ seg.shmEnd) :
    ShmInv seg
      { shm := { s.shm with
          shmNext := (s.shm.shmNext + size) % 2 ^ 64
          shmLastAlloc := s.shm.shmNext
          usedBytes := (s.shm.usedBytes + size) % 2 ^ 64
          freeBytes := (s.shm.freeBytes + 2 ^ 64 - size) % 2 ^ 64
          usedBytesHwm := hwm }
        live := { base := s.shm.shmNext, size := size } :: s.live } := by
  have ht := h.table
  have hend := seg.shmEnd_lt
  have hfirst := h.first_le
  have hused := h.used
  have hfree := h.free
  change seg.shmEnd < 2 ^ 64 at hend
  have hnext : (s.shm.shmNext + size) % 2 ^ 64 = s.shm.shmNext + size := by omega
  have halignedNext := h.aligned
  rw [hnext]
  constructor
  · show (s.shm.shmNext + size) % cachelineSize = 0
    unfold cachelineSize at *
    omega
  · show seg.first ≤ s.shm.shmNext + size
    omega
  · exact hroom
  · exact h.total
  · show (s.shm.usedBytes + size) % 2 ^ 64 = s.shm.shmNext + size - seg.first
    omega
  · show (s.shm.freeBytes + 2 ^ 64 - size) % 2 ^ 64 = seg.shmEnd - (s.shm.shmNext + size)
    omega
  · intro r hr
    rcases List.mem_cons.mp hr with rfl | hmem
    · exact ⟨halignedNext, hfirst, Nat.le_refl _⟩
    · have hr := h.inHeap r hmem
      exact ⟨hr.aligned, hr.first, Nat.le_trans hr.last (Nat.le_add_right _ _)⟩
  · intro r hr
    rcases List.mem_cons.mp hr with rfl | hmem
    · exact hsize
    · exact h.positive r hmem
  · apply List.pairwise_cons.mpr
    exact ⟨fun r hr => Or.inr (h.inHeap r hr).last, h.apart⟩
  · constructor
    · intro i frag hi
      have hr := ht.inHeap i frag hi
      exact ⟨hr.aligned, hr.first, Nat.le_trans hr.last (Nat.le_add_right _ _)⟩
    · exact ht.large
    · exact ht.hip
    · exact ht.tid
    · exact ht.apart
    · intro i frag hi r hr
      rcases List.mem_cons.mp hr with rfl | hmem
      · exact Or.inl (Or.inl (ht.inHeap i frag hi).last)
      · exact ht.uses i frag hi r hmem
    · intro i frag hi hpid
      obtain ⟨r, hr, hbase⟩ := ht.owner i frag hi hpid
      exact ⟨r, List.mem_cons_of_mem _ hr, hbase⟩
    · exact ht.inuse
  · intro _
    refine ⟨halignedNext, hfirst, Nat.lt_add_of_pos_right hsize, ?_, ?_⟩
    · intro r hr
      rcases List.mem_cons.mp hr with rfl | hmem
      · exact Or.inr rfl
      · exact Or.inl (h.inHeap r hmem).last
    · intro i frag hi
      exact Or.inl (ht.inHeap i frag hi).last

theorem ShmInv.track {seg : ShmSegment} {s : ShmState} (h : ShmInv seg s) (caller : Caller)
    {addr size i tracked hwm used : Nat} {old : LargeFragInfo} (haddr : addr ≠ 0)
    (hlarge : seg.largeFragSize ≤ size) (hget : s.shm.shmLargeFrags[i]? = some old)
    (hempty : old.fragAddr = 0) (hmem : { base := addr, size := size } ∈ s.live)
    (hnext : addr + size = s.shm.shmNext)
    (hbefore : ∀ j frag, Tracked s.shm.shmLargeFrags j frag → frag.region.last ≤ addr) :
    ShmInv seg
      { shm := { s.shm with
          shmLargeFrags := s.shm.shmLargeFrags.set i
            { fragAddr := addr
              fragSize := size
              fragAllocatedToPid := caller.pid
              fragAllocatedToTid := caller.tid
              fragFreedByPid := 0
              fragFreedByTid := 0 }
          nlargeFragsTracked := tracked
          nlargeFragsInuse := s.shm.nlargeFragsInuse + 1
          nlargeFragsInuseHwm := hwm
          usedByLargeFragsBytes := used
          shmLargeFragHip :=
            if s.shm.shmLargeFragHip < addr then addr else s.shm.shmLargeFragHip }
        live := s.live } := by
  have ht := h.table
  have hin := h.inHeap _ hmem
  refine ⟨h.aligned, h.first_le, h.le_end, h.total, h.used, h.free, h.inHeap, h.positive, h.apart,
    ?_, ?_⟩
  · constructor
    · intro j frag hj
      rcases tracked_set hj with ⟨_, rfl⟩ | ⟨_, hj'⟩
      · exact hin
      · exact ht.inHeap j frag hj'
    · intro j frag hj
      rcases tracked_set hj with ⟨_, rfl⟩ | ⟨_, hj'⟩
      · exact hlarge
      · exact ht.large j frag hj'
    · intro j frag hj
      show frag.fragAddr ≤ if s.shm.shmLargeFragHip < addr then addr else s.shm.shmLargeFragHip
      rcases tracked_set hj with ⟨_, rfl⟩ | ⟨_, hj'⟩
      · show addr ≤ _
        split
        · exact Nat.le_refl _
        · omega
      · have := ht.hip j frag hj'
        split
        · omega
        · exact this
    · intro j frag hj hpid
      rcases tracked_set hj with ⟨_, rfl⟩ | ⟨_, hj'⟩
      · rfl
      · exact ht.tid j frag hj' hpid
    · intro j k frag frag' hjk hj hk
      rcases tracked_set hj with ⟨rfl, rfl⟩ | ⟨_, hj'⟩
      · rcases tracked_set hk with ⟨rfl, _⟩ | ⟨_, hk'⟩
        · exact absurd rfl hjk
        · exact Or.inr (hbefore k frag' hk')
      · rcases tracked_set hk with ⟨rfl, rfl⟩ | ⟨_, hk'⟩
        · exact Or.inl (hbefore j frag hj')
        · exact ht.apart j k frag frag' hjk hj' hk'
    · intro j frag hj r hr
      rcases tracked_set hj with ⟨_, rfl⟩ | ⟨_, hj'⟩
      · by_cases hself : r = { base := addr, size := size }
        · subst hself
          exact Or.inr ⟨rfl, rfl, Nat.le_refl _⟩
        · exact Or.inl (apart_of_ne h.apart hmem hr hself)
      · exact ht.uses j frag hj' r hr
    · intro j frag hj hpid
      rcases tracked_set hj with ⟨_, rfl⟩ | ⟨_, hj'⟩
      · exact ⟨_, hmem, rfl⟩
      · exact ht.owner j frag hj' hpid
    · have hcount := countP_set_inUse
        { fragAddr := addr
          fragSize := size
          fragAllocatedToPid := caller.pid
          fragAllocatedToTid := caller.tid
          fragFreedByPid := 0
          fragFreedByTid := 0 } hget
      have hinuse := ht.inuse
      simp only [LargeFragInfo.inUse, hempty, haddr, ne_eq, not_true_eq_false, not_false_eq_true,
        false_and, and_self, decide_false, decide_true, Bool.false_eq_true, if_false, if_true]
        at hcount
      show s.shm.nlargeFragsInuse + 1 = _
      rw [hinuse]
      exact hcount.symm
  · intro hne
    have hl := h.last hne
    refine ⟨hl.aligned, hl.first, hl.lt_next, hl.live, ?_⟩
    intro j frag hj
    rcases tracked_set hj with ⟨_, rfl⟩ | ⟨_, hj'⟩
    · rcases hl.live _ hmem with hbef | hat
      · -- The fragment ends at the next address, which is behind the last allocation.
        have hlt := hl.lt_next
        simp only [Region.last] at hbef
        omega
      · exact Or.inr ⟨hat, hnext⟩
    · exact hl.frag j frag hj'

/-! ## Freeing -/

theorem ShmInv.undo {seg : ShmSegment} {s : ShmState} (h : ShmInv seg s) {f : Region}
    {nfrees nlast : Nat} (hf : f ∈ s.live) (hlast : s.shm.shmLastAlloc = f.base)
    (hsmall : s.shm.shmNext - f.base < seg.largeFragSize) :
    ShmInv seg
      { shm := { s.shm with
          nfrees := nfrees
          shmNext := f.base
          shmLastAlloc := 0
          freeBytes := (s.shm.freeBytes + (s.shm.shmNext - f.base)) % 2 ^ 64
          usedBytes := (s.shm.usedBytes + 2 ^ 64 - (s.shm.shmNext - f.base)) % 2 ^ 64
          nfreesLastFrag := nlast }
        live := s.live.erase f } := by
  have ht := h.table
  have hend := seg.shmEnd_lt
  change seg.shmEnd < 2 ^ 64 at hend
  have hin := h.inHeap f hf
  have hfirst := hin.first
  have hpos := first_pos seg
  have hle := h.le_end
  have hused := h.used
  have hfree := h.free
  have hl : LastOk seg s.shm.shmLargeFrags s.live s.shm.shmNext s.shm.shmLastAlloc :=
    h.last (by omega)
  rw [hlast] at hl
  have hlt := hl.lt_next
  obtain ⟨hfapart, hpair⟩ := apart_erase h.apart hf
  -- Everything else ends before the fragment.
  have hlive : ∀ r ∈ s.live.erase f, r.last ≤ f.base := by
    intro r hr
    have hrlive := List.mem_of_mem_erase hr
    rcases hl.live r hrlive with hbefore | hbase
    · exact hbefore
    · exact absurd (hfapart r hr)
        (not_apart_of_base_eq (h.positive f hf) (h.positive r hrlive) hbase.symm)
  have hfrag : ∀ i frag, Tracked s.shm.shmLargeFrags i frag → frag.region.last ≤ f.base := by
    intro i frag hi
    rcases hl.frag i frag hi with hbefore | ⟨haddr, hnext⟩
    · exact hbefore
    · have hlarge := ht.large i frag hi
      simp only [LargeFragInfo.region, Region.last] at hnext
      omega
  refine ⟨hin.aligned, hfirst, ?_, h.total, ?_, ?_, ?_, ?_, hpair, ?_, fun hne => absurd rfl hne⟩
  · show f.base ≤ seg.shmEnd
    omega
  · show (s.shm.usedBytes + 2 ^ 64 - (s.shm.shmNext - f.base)) % 2 ^ 64 = f.base - seg.first
    omega
  · show (s.shm.freeBytes + (s.shm.shmNext - f.base)) % 2 ^ 64 = seg.shmEnd - f.base
    omega
  · intro r hr
    have hr' := h.inHeap r (List.mem_of_mem_erase hr)
    exact ⟨hr'.aligned, hr'.first, hlive r hr⟩
  · intro r hr
    exact h.positive r (List.mem_of_mem_erase hr)
  · constructor
    · intro i frag hi
      have hr := ht.inHeap i frag hi
      exact ⟨hr.aligned, hr.first, hfrag i frag hi⟩
    · exact ht.large
    · exact ht.hip
    · exact ht.tid
    · exact ht.apart
    · intro i frag hi r hr
      exact ht.uses i frag hi r (List.mem_of_mem_erase hr)
    · intro i frag hi hpid
      obtain ⟨r, hr, hbase⟩ := ht.owner i frag hi hpid
      refine ⟨r, (List.mem_erase_of_ne ?_).mpr hr, hbase⟩
      rintro rfl
      have hbefore := hfrag i frag hi
      have hlarge := ht.large i frag hi
      have := seg.large_pos
      simp only [LargeFragInfo.region, Region.last] at hbefore
      omega
    · exact ht.inuse

theorem ShmInv.forget {seg : ShmSegment} {s : ShmState} (h : ShmInv seg s) {f : Region}
    {nfrees : Nat} (hf : f ∈ s.live)
    (hnot : ∀ i frag, Tracked s.shm.shmLargeFrags i frag → frag.fragAddr ≠ f.base) :
    ShmInv seg { shm := { s.shm with nfrees := nfrees }, live := s.live.erase f } := by
  have ht := h.table
  have hpair := (apart_erase h.apart hf).2
  refine ⟨h.aligned, h.first_le, h.le_end, h.total, h.used, h.free, ?_, ?_, hpair, ?_, ?_⟩
  · exact fun r hr => h.inHeap r (List.mem_of_mem_erase hr)
  · exact fun r hr => h.positive r (List.mem_of_mem_erase hr)
  · refine ⟨ht.inHeap, ht.large, ht.hip, ht.tid, ht.apart, ?_, ?_, ht.inuse⟩
    · exact fun i frag hi r hr => ht.uses i frag hi r (List.mem_of_mem_erase hr)
    · intro i frag hi hpid
      obtain ⟨r, hr, hbase⟩ := ht.owner i frag hi hpid
      refine ⟨r, (List.mem_erase_of_ne ?_).mpr hr, hbase⟩
      rintro rfl
      exact hnot i frag hi hbase.symm
  · intro hne
    have hl := h.last hne
    exact ⟨hl.aligned, hl.first, hl.lt_next,
      fun r hr => hl.live r (List.mem_of_mem_erase hr), hl.frag⟩

theorem ShmInv.giveBack {seg : ShmSegment} {s : ShmState} (h : ShmInv seg s) (caller : Caller)
    {f : Region} {i nfrees : Nat} {frag : LargeFragInfo} (hf : f ∈ s.live)
    (htracked : Tracked s.shm.shmLargeFrags i frag) (hbase : frag.fragAddr = f.base) :
    ShmInv seg
      { shm := { s.shm with
          nfrees := nfrees
          shmLargeFrags := s.shm.shmLargeFrags.set i { frag with
            fragFreedByPid := caller.pid
            fragFreedByTid := caller.tid }
          nlargeFragsInuse := s.shm.nlargeFragsInuse - 1 }
        live := s.live.erase f } := by
  have ht := h.table
  have hcaller := caller.pid_pos
  obtain ⟨hfapart, hpair⟩ := apart_erase h.apart hf
  have hlarge := ht.large i frag htracked
  have hpos : 0 < frag.region.size := Nat.lt_of_lt_of_le seg.large_pos hlarge
  -- The fragment is in use, for it is not apart from the live one at its start.
  have hpid : frag.fragFreedByPid = 0 := by
    rcases ht.uses i frag htracked f hf with hleft | ⟨hpid, _⟩
    · exact absurd hleft (not_apart_of_base_eq hpos (h.positive f hf) hbase)
    · exact hpid
  refine ⟨h.aligned, h.first_le, h.le_end, h.total, h.used, h.free, ?_, ?_, hpair, ?_, ?_⟩
  · exact fun r hr => h.inHeap r (List.mem_of_mem_erase hr)
  · exact fun r hr => h.positive r (List.mem_of_mem_erase hr)
  · constructor
    · intro j frag' hj
      rcases tracked_set hj with ⟨_, rfl⟩ | ⟨_, hj'⟩
      · exact ht.inHeap i frag htracked
      · exact ht.inHeap j frag' hj'
    · intro j frag' hj
      rcases tracked_set hj with ⟨_, rfl⟩ | ⟨_, hj'⟩
      · exact hlarge
      · exact ht.large j frag' hj'
    · intro j frag' hj
      rcases tracked_set hj with ⟨_, rfl⟩ | ⟨_, hj'⟩
      · exact ht.hip i frag htracked
      · exact ht.hip j frag' hj'
    · intro j frag' hj hzero
      rcases tracked_set hj with ⟨_, rfl⟩ | ⟨_, hj'⟩
      · exact absurd hzero (by show caller.pid ≠ 0; omega)
      · exact ht.tid j frag' hj' hzero
    · intro j k frag₁ frag₂ hjk hj hk
      rcases tracked_set hj with ⟨rfl, rfl⟩ | ⟨_, hj'⟩
      · rcases tracked_set hk with ⟨rfl, _⟩ | ⟨_, hk'⟩
        · exact absurd rfl hjk
        · exact ht.apart j k frag frag₂ hjk htracked hk'
      · rcases tracked_set hk with ⟨rfl, rfl⟩ | ⟨_, hk'⟩
        · exact ht.apart j k frag₁ frag hjk hj' htracked
        · exact ht.apart j k frag₁ frag₂ hjk hj' hk'
    · intro j frag' hj r hr
      rcases tracked_set hj with ⟨_, rfl⟩ | ⟨_, hj'⟩
      · -- Only the fragment that is freed was at its start.
        rcases ht.uses i frag htracked r (List.mem_of_mem_erase hr) with hleft | ⟨_, hrbase, _⟩
        · exact Or.inl hleft
        · exact absurd (hfapart r hr)
            (not_apart_of_base_eq (h.positive f hf) (h.positive r (List.mem_of_mem_erase hr))
              (hbase.symm.trans hrbase.symm))
      · exact ht.uses j frag' hj' r (List.mem_of_mem_erase hr)
    · intro j frag' hj hzero
      rcases tracked_set hj with ⟨_, rfl⟩ | ⟨hji, hj'⟩
      · exact absurd hzero (by show caller.pid ≠ 0; omega)
      · obtain ⟨r, hr, hrbase⟩ := ht.owner j frag' hj' hzero
        refine ⟨r, (List.mem_erase_of_ne ?_).mpr hr, hrbase⟩
        rintro rfl
        have hpos' : 0 < frag'.region.size :=
          Nat.lt_of_lt_of_le seg.large_pos (ht.large j frag' hj')
        exact not_apart_of_base_eq hpos' hpos (hrbase.symm.trans hbase.symm)
          (ht.apart j i frag' frag hji hj' htracked)
    · have hcount := countP_set_inUse ({ frag with
        fragFreedByPid := caller.pid
        fragFreedByTid := caller.tid } : LargeFragInfo) htracked.1
      have hinuse := ht.inuse
      have haddr := htracked.2
      have hcaller' : caller.pid ≠ 0 := by omega
      simp only [LargeFragInfo.inUse, hpid, haddr, hcaller', ne_eq, not_false_eq_true, and_false,
        and_self, decide_false, decide_true, Bool.false_eq_true, if_false, if_true] at hcount
      show s.shm.nlargeFragsInuse - 1 = List.countP _ (s.shm.shmLargeFrags.set i _)
      omega
  · intro hne
    have hl := h.last hne
    refine ⟨hl.aligned, hl.first, hl.lt_next,
      fun r hr => hl.live r (List.mem_of_mem_erase hr), ?_⟩
    intro j frag' hj
    rcases tracked_set hj with ⟨_, rfl⟩ | ⟨_, hj'⟩
    · exact hl.frag i frag htracked
    · exact hl.frag j frag' hj'

end Platform
end TreePass
