import TreePass.Platform.ShmHeapInv

/-!
# Calls on the shared heap

What a call on the shared heap does in any state that sequences of calls reach.

* `shmAlloc_spec`, `shmFree_spec` and `shmRealloc_spec` are about one call, from the invariant.
* `HeapSafe` is what holds between calls and `CallSafe` what a call guarantees;
  `shmHeap_safe` is that both hold in every sequence of calls.

`platform_shm_realloc` copies the whole old fragment, also to a smaller one. What becomes of the
bytes is stated for a copy that stays inside the segment and away from the live fragments, as every
copy to a fragment that is not smaller does.
-/

namespace TreePass
namespace Platform

open Lib

/-! ## Bytes -/

/-- The bytes of the fragments in `keep`, and those outside the segment, are unchanged. -/
structure BytesKept (seg : ShmSegment) (keep : List Region) (memory memory' : Nat → UInt8) :
    Prop where
  frag : ∀ r ∈ keep, ∀ a, r.base ≤ a → a < r.last → memory' a = memory a
  outside : ∀ a, a < seg.first ∨ seg.shmEnd ≤ a → memory' a = memory a

theorem BytesKept.refl (seg : ShmSegment) (keep : List Region) (memory : Nat → UInt8) :
    BytesKept seg keep memory memory :=
  ⟨fun _ _ _ _ _ => rfl, fun _ _ => rfl⟩

theorem BytesKept.trans {seg : ShmSegment} {keep : List Region}
    {memory memory' memory'' : Nat → UInt8} (h : BytesKept seg keep memory memory')
    (h' : BytesKept seg keep memory' memory'') : BytesKept seg keep memory memory'' where
  frag := fun r hr a hlo hhi => (h'.frag r hr a hlo hhi).trans (h.frag r hr a hlo hhi)
  outside := fun a ha => (h'.outside a ha).trans (h.outside a ha)

theorem BytesKept.subset {seg : ShmSegment} {keep keep' : List Region}
    {memory memory' : Nat → UInt8} (h : BytesKept seg keep memory memory')
    (hsub : ∀ r ∈ keep', r ∈ keep) : BytesKept seg keep' memory memory' where
  frag := fun r hr => h.frag r (hsub r hr)
  outside := h.outside

theorem bytesKept_of_written {seg : ShmSegment} {keep : List Region} (dst : Region)
    {memory memory' : Nat → UInt8} (hfirst : seg.first ≤ dst.base) (hlast : dst.last ≤ seg.shmEnd)
    (hapart : ∀ r ∈ keep, dst.Apart r)
    (hsame : ∀ a, ¬ (dst.base ≤ a ∧ a < dst.last) → memory' a = memory a) :
    BytesKept seg keep memory memory' := by
  constructor
  · intro r hr a hlo hhi
    apply hsame
    rintro ⟨hlo', hhi'⟩
    rcases hapart r hr with hbefore | hafter
    · omega
    · omega
  · intro a ha
    apply hsame
    rintro ⟨hlo', hhi'⟩
    rcases ha with hbefore | hafter
    · omega
    · omega

/-! ## Allocating -/

/-- Where an allocation finds its fragment: in new memory, or in a tracked fragment that is large
enough and shares no byte with a live one. -/
def Placed (s : ShmState) (ptr size : Nat) : Prop :=
  ptr = s.shm.shmNext ∨
    ∃ i frag, Tracked s.shm.shmLargeFrags i frag ∧ frag.fragAddr = ptr ∧
      frag.fragFreedByPid ≠ 0 ∧ size ≤ frag.fragSize ∧ ∀ r ∈ s.live, frag.region.Apart r

/-- What an allocation that succeeds guarantees. -/
structure Allocated (seg : ShmSegment) (s : ShmState) (shm' : ShmHeap) (ptr size : Nat) :
    Prop where
  ptr_pos : ptr ≠ 0
  inv : ShmInv seg { shm := shm', live := { base := ptr, size := size } :: s.live }
  placed : Placed s ptr size
  kept : BytesKept seg s.live s.shm.memory shm'.memory

theorem shmFindLarge_spec {seg : ShmSegment} {s : ShmState} (h : ShmInv seg s) (caller : Caller)
    {size : Nat} (hsize : 0 < size) :
    ∃ shm' ptr, shmFindLarge caller size s.shm = some (shm', ptr) ∧
      ((ptr = 0 ∧ shm' = s.shm) ∨ Allocated seg s shm' ptr size) := by
  obtain ⟨found, hfind, hspec⟩ := findFreeFrag_spec size s.shm.shmLargeFrags h.table.tid
  unfold shmFindLarge
  rw [hfind]
  cases found with
  | none => exact ⟨s.shm, 0, rfl, Or.inl ⟨rfl, rfl⟩⟩
  | some i =>
      obtain ⟨frag, htracked, hle, hfree⟩ := hspec i rfl
      have hinv := h.recycle caller
        (if s.shm.nlargeFragsInuseHwm < s.shm.nlargeFragsInuse + 1 then
          s.shm.nlargeFragsInuse + 1 else s.shm.nlargeFragsInuseHwm)
        hsize htracked hle hfree
      have hapart : ∀ r ∈ s.live, frag.region.Apart r := by
        intro r hr
        rcases h.table.uses i frag htracked r hr with hleft | ⟨hpid, _⟩
        · exact hleft
        · exact absurd hpid hfree
      have hregion := h.table.inHeap i frag htracked
      dsimp only
      rw [htracked.1]
      refine ⟨_, _, rfl, Or.inr ?_⟩
      constructor
      · exact htracked.2
      · exact hinv.withMemory (zeroBytes s.shm.memory frag.fragAddr frag.fragSize)
      · exact Or.inr ⟨i, frag, htracked, rfl, hfree, hle, hapart⟩
      · have hlast := Nat.le_trans hregion.last h.le_end
        apply bytesKept_of_written frag.region hregion.first hlast hapart
        intro a ha
        unfold zeroBytes
        exact if_neg ha

theorem shmBump_spec {seg : ShmSegment} {s : ShmState} (h : ShmInv seg s) {size : Nat}
    (hallowed : SizeAllowed s.shm size) :
    shmBump seg size s.shm = (s.shm, 0) ∨
      ∃ shm', shmBump seg size s.shm = (shm', s.shm.shmNext) ∧
        ShmInv seg
          { shm := shm', live := { base := s.shm.shmNext, size := size } :: s.live } ∧
        shm'.shmNext = s.shm.shmNext + size ∧ shm'.shmLargeFrags = s.shm.shmLargeFrags ∧
        shm'.memory = s.shm.memory := by
  obtain ⟨hsize, haligned, hlt⟩ := hallowed
  have hmod : (s.shm.shmNext + size) % 2 ^ 64 = s.shm.shmNext + size := Nat.mod_eq_of_lt hlt
  unfold shmBump
  by_cases hfull : seg.shmEnd < (s.shm.shmNext + size) % 2 ^ 64
  · exact Or.inl (if_pos hfull)
  · rw [if_neg hfull]
    exact Or.inr ⟨_, rfl, h.bump hsize haligned (by omega), hmod, rfl, rfl⟩

theorem shmAllocNew_spec {seg : ShmSegment} {s : ShmState} (h : ShmInv seg s) (caller : Caller)
    {size : Nat} (hallowed : SizeAllowed s.shm size) :
    ∃ shm' ptr, shmAllocNew seg caller size s.shm = some (shm', ptr) ∧
      ((ptr = 0 ∧ shm' = s.shm) ∨ Allocated seg s shm' ptr size) := by
  unfold shmAllocNew
  rcases shmBump_spec h hallowed with hfull | ⟨shm', hbump, hinv, hnext, hfrags, hmemory⟩
  · rw [hfull]
    exact ⟨s.shm, 0, if_neg fun hc => hc.1 rfl, Or.inl ⟨rfl, rfl⟩⟩
  · have hpos := first_pos seg
    have hfirst := h.first_le
    have hne : s.shm.shmNext ≠ 0 := by omega
    have hkept : ∀ memory, memory = s.shm.memory →
        BytesKept seg s.live s.shm.memory memory := by
      rintro memory rfl
      exact BytesKept.refl seg s.live _
    rw [hbump]
    dsimp only
    by_cases hlarge : seg.largeFragSize ≤ size
    · rw [if_pos ⟨hne, hlarge⟩]
      -- No tracked fragment reaches the new one.
      have hbefore : ∀ j frag, Tracked shm'.shmLargeFrags j frag →
          frag.region.last ≤ s.shm.shmNext := by
        intro j frag hj
        rw [hfrags] at hj
        exact (h.table.inHeap j frag hj).last
      have hnew : ∀ j frag, Tracked shm'.shmLargeFrags j frag →
          frag.fragAddr ≠ s.shm.shmNext := by
        intro j frag hj haddr
        have hlast := hbefore j frag hj
        have hfrag := hinv.table.large j frag hj
        have := seg.large_pos
        simp only [LargeFragInfo.region, Region.last] at hlast
        omega
      obtain ⟨found, hfind, hspec⟩ := findEmptyFrag_spec shm'.shmLargeFrags hnew
      unfold shmTrackLargeAlloc
      rw [hfind]
      cases found with
      | none =>
          exact ⟨shm', s.shm.shmNext, rfl, Or.inr ⟨hne, hinv, Or.inl rfl, hkept _ hmemory⟩⟩
      | some i =>
          obtain ⟨old, hget, hempty⟩ := hspec i rfl
          refine ⟨_, s.shm.shmNext, rfl, Or.inr ⟨hne, ?_, Or.inl rfl, hkept _ hmemory⟩⟩
          exact hinv.track caller hne hlarge hget hempty List.mem_cons_self hnext.symm hbefore
    · rw [if_neg fun hc => hlarge hc.2]
      exact ⟨shm', s.shm.shmNext, rfl, Or.inr ⟨hne, hinv, Or.inl rfl, hkept _ hmemory⟩⟩

theorem shmAlloc_spec {seg : ShmSegment} {s : ShmState} (h : ShmInv seg s) (caller : Caller)
    {size : Nat} (hallowed : SizeAllowed s.shm size) :
    ∃ shm' ptr, shmAlloc seg caller size s.shm = some (shm', ptr) ∧
      ((ptr = 0 ∧ shm' = s.shm) ∨ Allocated seg s shm' ptr size) := by
  unfold shmAlloc
  rw [if_pos h.aligned]
  by_cases hlarge : seg.largeFragSize ≤ size
  · rw [if_pos hlarge]
    obtain ⟨shm', ptr, hfind, hspec⟩ := shmFindLarge_spec h caller hallowed.1
    rw [hfind]
    dsimp only
    by_cases hptr : ptr = 0
    · rw [if_neg (not_not.mpr hptr)]
      rcases hspec with ⟨_, rfl⟩ | halloc
      · exact shmAllocNew_spec h caller hallowed
      · exact absurd hptr halloc.ptr_pos
    · rw [if_pos hptr]
      exact ⟨shm', ptr, rfl, hspec⟩
  · rw [if_neg hlarge]
    exact shmAllocNew_spec h caller hallowed

/-! ## Freeing -/

theorem shmFree_memory (seg : ShmSegment) (caller : Caller) (ptr : Nat) (shm : ShmHeap) :
    (shmFree seg caller ptr shm).memory = shm.memory := by
  unfold shmFree shmTrackFree
  split
  · split
    · rfl
    · split
      · rfl
      · split <;> rfl
  · rfl

theorem findIdx?_tracked (frags : List LargeFragInfo) (addr : Nat) :
    (frags.findIdx? (fun frag => frag.fragAddr ≠ 0 ∧ frag.fragAddr = addr) = none ∧
        ∀ i frag, Tracked frags i frag → frag.fragAddr ≠ addr) ∨
      ∃ i frag, frags.findIdx? (fun frag => frag.fragAddr ≠ 0 ∧ frag.fragAddr = addr) = some i ∧
        Tracked frags i frag ∧ frag.fragAddr = addr := by
  cases hfind : frags.findIdx? (fun frag => frag.fragAddr ≠ 0 ∧ frag.fragAddr = addr) with
  | none =>
      refine Or.inl ⟨rfl, ?_⟩
      rintro i frag ⟨hget, haddr⟩ heq
      have hnone := List.findIdx?_eq_none_iff.mp hfind frag (List.mem_of_getElem? hget)
      exact of_decide_eq_false hnone ⟨haddr, heq⟩
  | some i =>
      obtain ⟨hi, hp, _⟩ := List.findIdx?_eq_some_iff_getElem.mp hfind
      have hfrag := of_decide_eq_true hp
      exact Or.inr ⟨i, frags[i], rfl, ⟨List.getElem?_eq_getElem hi, hfrag.1⟩, hfrag.2⟩

private theorem modify_frag_eq_set {frags : List LargeFragInfo} {i : Nat} {frag : LargeFragInfo}
    {f : LargeFragInfo → LargeFragInfo} (hget : frags[i]? = some frag) :
    frags.modify i f = frags.set i (f frag) := by
  have : Inhabited LargeFragInfo := ⟨frag⟩
  rw [List.modify_eq_set, hget, Option.getD_some]

theorem shmFree_spec {seg : ShmSegment} {s : ShmState} (h : ShmInv seg s) (caller : Caller)
    {f : Region} (hf : f ∈ s.live) :
    ShmInv seg { shm := shmFree seg caller f.base s.shm, live := s.live.erase f } := by
  have hin := h.inHeap f hf
  have hlast := hin.last
  have hpos := h.positive f hf
  have hend := h.le_end
  unfold Region.last at hlast
  unfold shmFree
  rw [if_pos ⟨hin.first, by omega⟩]
  by_cases hundo : s.shm.shmLastAlloc = f.base ∧ s.shm.shmNext - f.base < seg.largeFragSize
  · rw [if_pos hundo]
    exact h.undo hf hundo.1 hundo.2
  · rw [if_neg hundo]
    unfold shmTrackFree
    dsimp only
    by_cases hhip : s.shm.shmLargeFragHip < f.base
    · rw [if_pos hhip]
      apply h.forget hf
      intro i frag hi
      have := h.table.hip i frag hi
      omega
    · rw [if_neg hhip]
      rcases findIdx?_tracked s.shm.shmLargeFrags f.base with
        ⟨hnone, hnot⟩ | ⟨i, frag, hfind, htracked, hbase⟩
      · rw [hnone]
        exact h.forget hf hnot
      · rw [hfind]
        dsimp only
        rw [modify_frag_eq_set htracked.1]
        exact h.giveBack caller hf htracked hbase

/-! ## Reallocating -/

/-- Where the bytes of the old fragment are copied to: they fit into the new one, or at least they
stay inside the segment and apart from what is live. -/
def CopyFits (seg : ShmSegment) (s : ShmState) (f : Region) (ptr newsize : Nat) : Prop :=
  f.size ≤ newsize ∨
    (ptr + f.size ≤ seg.shmEnd ∧ ∀ r ∈ s.live, ({ base := ptr, size := f.size } : Region).Apart r)

/-- What reallocating a live fragment guarantees when it succeeds. -/
structure Reallocated (seg : ShmSegment) (s : ShmState) (f : Region) (shm' : ShmHeap)
    (ptr newsize : Nat) : Prop where
  ptr_pos : ptr ≠ 0
  inv : ShmInv seg
    { shm := shm', live := { base := ptr, size := newsize } :: s.live.erase f }
  placed : Placed s ptr newsize
  copied : CopyFits seg s f ptr newsize →
    ∀ k, k < f.size → k < newsize → shm'.memory (ptr + k) = s.shm.memory (f.base + k)
  kept : CopyFits seg s f ptr newsize →
    BytesKept seg (s.live.erase f) s.shm.memory shm'.memory

theorem Allocated.reallocated {seg : ShmSegment} {s : ShmState} {shm' : ShmHeap}
    {ptr newsize : Nat} (h : Allocated seg s shm' ptr newsize) (caller : Caller) {f : Region}
    (hf : f ∈ s.live) :
    Reallocated seg s f
      (shmFree seg caller f.base { shm' with memory := copyBytes shm'.memory ptr f.base f.size })
      ptr newsize := by
  have hmem : f ∈ ({ base := ptr, size := newsize } : Region) :: s.live := List.mem_cons_of_mem _ hf
  have hnew := h.inv.inHeap _ List.mem_cons_self
  have hpos := h.inv.positive f hmem
  obtain ⟨hapart, _⟩ := List.pairwise_cons.mp h.inv.apart
  -- The new fragment is another one.
  have hne : ({ base := ptr, size := newsize } : Region) ≠ f := by
    rintro rfl
    exact not_apart_of_base_eq hpos hpos rfl (hapart _ hf)
  have hfree :=
    shmFree_spec (h.inv.withMemory (copyBytes shm'.memory ptr f.base f.size)) caller hmem
  dsimp only [ShmState.withMemory] at hfree
  rw [List.erase_cons_tail (by simpa using hne)] at hfree
  -- All that is written is apart from what is live.
  have hwritten : CopyFits seg s f ptr newsize →
      ptr + f.size ≤ seg.shmEnd ∧
        ∀ r ∈ s.live, ({ base := ptr, size := f.size } : Region).Apart r := by
    rintro (hle | hfits)
    · have hlast := Nat.le_trans hnew.last h.inv.le_end
      simp only [Region.last] at hlast
      exact ⟨by omega, fun r hr => (hapart r hr).shrink hle⟩
    · exact hfits
  have hcopy : CopyFits seg s f ptr newsize → BytesKept seg s.live s.shm.memory
      (copyBytes shm'.memory ptr f.base f.size) := by
    intro hfits
    obtain ⟨hlast, hfrag⟩ := hwritten hfits
    refine h.kept.trans (bytesKept_of_written { base := ptr, size := f.size } hnew.first hlast
      hfrag ?_)
    intro a ha
    unfold copyBytes
    exact if_neg ha
  refine ⟨h.ptr_pos, hfree, h.placed, ?_, ?_⟩
  · intro _ k hkf _
    rw [shmFree_memory]
    show copyBytes shm'.memory ptr f.base f.size (ptr + k) = _
    unfold copyBytes
    rw [if_pos ⟨by omega, by omega⟩, Nat.add_sub_cancel_left]
    -- Allocating has not changed the old fragment.
    exact h.kept.frag f hf (f.base + k) (by omega) (by simp only [Region.last]; omega)
  · intro hfits
    rw [shmFree_memory]
    exact (hcopy hfits).subset fun r hr => List.mem_of_mem_erase hr

theorem shmRealloc_spec {seg : ShmSegment} {s : ShmState} (h : ShmInv seg s) (caller : Caller)
    {f : Region} (hf : f ∈ s.live) {newsize : Nat} (hallowed : SizeAllowed s.shm newsize) :
    ∃ shm' ptr, shmRealloc seg caller f.base f.size newsize s.shm = some (shm', ptr) ∧
      ((ptr = 0 ∧ shm' = s.shm) ∨ Reallocated seg s f shm' ptr newsize) := by
  obtain ⟨shm', ptr, halloc, hspec⟩ := shmAlloc_spec h caller hallowed
  unfold shmRealloc
  rw [halloc]
  dsimp only
  rcases hspec with ⟨rfl, rfl⟩ | hspec
  · exact ⟨s.shm, 0, if_neg fun hc => hc rfl, Or.inl ⟨rfl, rfl⟩⟩
  · rw [if_pos hspec.ptr_pos]
    exact ⟨_, ptr, rfl, Or.inr (hspec.reallocated caller hf)⟩

/-! ## Sequences of calls -/

/-- What holds of the heap between calls. -/
structure HeapSafe (seg : ShmSegment) (s : ShmState) : Prop where
  apart : s.live.Pairwise Region.Apart
  aligned : ∀ r ∈ s.live, r.base % cachelineSize = 0
  inside : ∀ r ∈ s.live, seg.first ≤ r.base ∧ r.last ≤ seg.shmEnd
  counted : s.shm.usedBytes + s.shm.freeBytes = s.shm.totalBytes - seg.ctrlblockSize
  inuse : s.shm.nlargeFragsInuse = s.shm.shmLargeFrags.countP LargeFragInfo.inUse
  owner : ∀ i frag, Tracked s.shm.shmLargeFrags i frag →
    (frag.inUse = true ↔ ∃ r ∈ s.live, r.base = frag.fragAddr ∧ r.size ≤ frag.fragSize)

/-- What a call guarantees of the state after it and the pointer it returns. -/
def CallSafe (seg : ShmSegment) (s : ShmState) : ShmCall → ShmState → Nat → Prop
  | .alloc _ size, s', ptr =>
      (ptr = 0 ∧ s' = s) ∨
        (ptr ≠ 0 ∧ s'.live = { base := ptr, size := size } :: s.live ∧ Placed s ptr size ∧
          BytesKept seg s.live s.shm.memory s'.shm.memory)
  | .free _ f, s', _ => s'.live = s.live.erase f ∧ s'.shm.memory = s.shm.memory
  | .realloc _ f newsize, s', ptr =>
      (ptr = 0 ∧ s' = s) ∨
        (ptr ≠ 0 ∧ s'.live = { base := ptr, size := newsize } :: s.live.erase f ∧
          Placed s ptr newsize ∧
          (CopyFits seg s f ptr newsize →
            (∀ k, k < f.size → k < newsize →
                s'.shm.memory (ptr + k) = s.shm.memory (f.base + k)) ∧
              BytesKept seg (s.live.erase f) s.shm.memory s'.shm.memory))

theorem ShmInv.heapSafe {seg : ShmSegment} {s : ShmState} (h : ShmInv seg s) :
    HeapSafe seg s := by
  have ht := h.table
  have hfirst := h.first_le
  have hend := h.le_end
  constructor
  · exact h.apart
  · exact fun r hr => (h.inHeap r hr).aligned
  · exact fun r hr => ⟨(h.inHeap r hr).first, Nat.le_trans (h.inHeap r hr).last hend⟩
  · rw [h.used, h.free, h.total]
    unfold ShmSegment.first ShmSegment.shmEnd at *
    omega
  · exact ht.inuse
  · intro i frag hi
    -- A live fragment at the start of a tracked one uses it.
    have huse : ∀ r ∈ s.live, r.base = frag.fragAddr →
        frag.fragFreedByPid = 0 ∧ r.size ≤ frag.fragSize := by
      intro r hr hbase
      rcases ht.uses i frag hi r hr with hleft | ⟨hpid, _, hle⟩
      · have hpos : 0 < frag.region.size := Nat.lt_of_lt_of_le seg.large_pos (ht.large i frag hi)
        exact absurd hleft (not_apart_of_base_eq hpos (h.positive r hr) hbase.symm)
      · exact ⟨hpid, hle⟩
    unfold LargeFragInfo.inUse
    rw [decide_eq_true_iff]
    constructor
    · rintro ⟨_, hpid⟩
      obtain ⟨r, hr, hbase⟩ := ht.owner i frag hi hpid
      exact ⟨r, hr, hbase, (huse r hr hbase).2⟩
    · rintro ⟨r, hr, hbase, _⟩
      exact ⟨hi.2, (huse r hr hbase).1⟩

theorem ShmInv.call {seg : ShmSegment} {s : ShmState} (h : ShmInv seg s) {call : ShmCall}
    (hallowed : CallAllowed s call) :
    ∃ s' ptr, call.run seg s = some (s', ptr) ∧ ShmInv seg s' ∧ CallSafe seg s call s' ptr := by
  cases call with
  | alloc caller size =>
      obtain ⟨shm', ptr, hrun, hspec⟩ := shmAlloc_spec h caller hallowed
      refine ⟨{ shm := shm', live := addLive s.live ptr size }, ptr, ?_, ?_⟩
      · simp only [ShmCall.run, hrun, Option.map_some]
      · rcases hspec with ⟨rfl, rfl⟩ | hspec
        · exact ⟨h, Or.inl ⟨rfl, rfl⟩⟩
        · unfold addLive
          rw [if_neg hspec.ptr_pos]
          exact ⟨hspec.inv, Or.inr ⟨hspec.ptr_pos, rfl, hspec.placed, hspec.kept⟩⟩
  | free caller f =>
      exact ⟨_, 0, rfl, shmFree_spec h caller hallowed, rfl, shmFree_memory seg caller f.base s.shm⟩
  | realloc caller f newsize =>
      obtain ⟨shm', ptr, hrun, hspec⟩ := shmRealloc_spec h caller hallowed.1 hallowed.2
      refine ⟨{ shm := shm',
                live := if ptr = 0 then s.live else addLive (s.live.erase f) ptr newsize },
        ptr, ?_, ?_⟩
      · simp only [ShmCall.run, hrun, Option.map_some]
      · rcases hspec with ⟨rfl, rfl⟩ | hspec
        · exact ⟨h, Or.inl ⟨rfl, rfl⟩⟩
        · unfold addLive
          rw [if_neg hspec.ptr_pos, if_neg hspec.ptr_pos]
          exact ⟨hspec.inv, Or.inr ⟨hspec.ptr_pos, rfl, hspec.placed,
            fun hfits => ⟨hspec.copied hfits, hspec.kept hfits⟩⟩⟩

theorem shmInv_of_reachable {seg : ShmSegment} {s : ShmState}
    (hreach : (shmSystem seg).Reachable s) : ShmInv seg s := by
  refine System.Reachable.invariant hreach ?_ ?_
  · rintro ⟨shm, live⟩ ⟨rfl, memory, rfl⟩
    exact shmInv_create seg memory
  · rintro s call s' hinv ⟨hallowed, s₁, ptr, memory, hrun, rfl⟩
    obtain ⟨s₂, ptr', hrun', hinv', _⟩ := hinv.call hallowed
    rw [hrun] at hrun'
    obtain ⟨rfl, rfl⟩ := Prod.mk.inj (Option.some.inj hrun')
    exact hinv'.withMemory memory

theorem threeLines_pos : 0 < 4096 := by decide
theorem threeLines_aligned : 4096 % cachelineSize = 0 := by decide
theorem threeLines_ctrlblock : 8192 % cachelineSize = 0 := by decide
theorem threeLines_le : 8192 ≤ 8192 + 192 := by decide
theorem threeLines_end : 4096 + (8192 + 192) < 2 ^ 64 := by decide
theorem threeLines_large : 0 < 38 * 1024 := by decide

/-- A segment with three cache lines behind its control block. -/
def threeLines : ShmSegment where
  start := 4096
  ctrlblockSize := 8192
  size := 8192 + 192
  largeFragSize := 38 * 1024
  start_pos := threeLines_pos
  start_aligned := threeLines_aligned
  ctrlblock_aligned := threeLines_ctrlblock
  ctrlblock_le := threeLines_le
  shmEnd_lt := threeLines_end
  large_pos := threeLines_large

def firstCaller : Caller where
  pid := 1
  tid := 1
  pid_pos := Nat.one_pos

def newLines : ShmState where
  shm := shmCreate threeLines fun a => UInt8.ofNat a
  live := []

def linesTaken : ShmState where
  shm := (shmBump threeLines 128 newLines.shm).1
  live := [{ base := 12288, size := 128 }]

theorem newLines_reachable : (shmSystem threeLines).Reachable newLines :=
  ⟨newLines, [], ⟨rfl, _, rfl⟩, System.Run.nil⟩

theorem linesTaken_reachable : (shmSystem threeLines).Reachable linesTaken := by
  refine ⟨newLines, [(newLines, .alloc firstCaller 128)], ⟨rfl, _, rfl⟩, ?_⟩
  have hnil : (shmSystem threeLines).Run newLines [] newLines := System.Run.nil
  refine hnil.snoc ⟨?_, linesTaken, 12288, _, rfl, rfl⟩
  exact ⟨by decide, by decide, by decide⟩

end Platform
end TreePass
