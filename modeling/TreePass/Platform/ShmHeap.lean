import TreePass.Lib.Regions
import TreePass.Lib.Transition

/-!
# The heap in shared memory

`shmem.c` hands out memory from one shared segment, behind a control block. Memory comes from a
pointer that only moves up, except that freeing the fragment allocated last moves it back when that
fragment is small. Large fragments are tracked in a table of fixed size; a freed one stays in the
table and is handed out again for a request that it is large enough for.

* `shmAlloc`, `shmRealloc` and `shmFree` are the three calls on the heap.
* `ShmState` adds the fragments that are live, which the code does not record, and `shmSystem` are
  the sequences of calls on live fragments.

Addresses are numbers, and `0` is the null pointer. An assertion that fails has no result.
-/

namespace TreePass
namespace Platform

open Lib

/-! ## The segment and its control block -/

/-- `PLATFORM_CACHELINE_SIZE`. -/
def cachelineSize : Nat := 64

/-- `SHM_NUM_LARGE_FRAGS`, twice `MAX_THREADS`. -/
def shmNumLargeFrags : Nat := 2 * 64

/-- A shared segment: where it starts, the size of the control block and of the whole, and
`SHM_LARGE_FRAG_SIZE`, which depends on the build. -/
structure ShmSegment where
  start : Nat
  ctrlblockSize : Nat
  size : Nat
  largeFragSize : Nat
  start_pos : 0 < start
  start_aligned : start % cachelineSize = 0
  ctrlblock_aligned : ctrlblockSize % cachelineSize = 0
  ctrlblock_le : ctrlblockSize ≤ size
  shmEnd_lt : start + size < 2 ^ 64
  large_pos : 0 < largeFragSize

def ShmSegment.first (seg : ShmSegment) : Nat := seg.start + seg.ctrlblockSize

/-- `shm_end`. -/
def ShmSegment.shmEnd (seg : ShmSegment) : Nat := seg.start + seg.size

/-- `shm_large_frag_info`. -/
structure LargeFragInfo where
  fragAddr : Nat
  fragSize : Nat
  fragAllocatedToPid : Nat
  fragAllocatedToTid : Nat
  fragFreedByPid : Nat
  fragFreedByTid : Nat
  deriving DecidableEq, Repr

def emptyFrag : LargeFragInfo where
  fragAddr := 0
  fragSize := 0
  fragAllocatedToPid := 0
  fragAllocatedToTid := 0
  fragFreedByPid := 0
  fragFreedByTid := 0

/-- `shmem_heap`, with the memory of the segment. -/
structure ShmHeap where
  shmNext : Nat
  shmLastAlloc : Nat
  shmLargeFragHip : Nat
  shmLargeFrags : List LargeFragInfo
  totalBytes : Nat
  usedBytes : Nat
  freeBytes : Nat
  usedBytesHwm : Nat
  nfrees : Nat
  nfreesLastFrag : Nat
  usedByLargeFragsBytes : Nat
  nlargeFragsTracked : Nat
  nlargeFragsInuse : Nat
  nlargeFragsInuseHwm : Nat
  memory : Nat → UInt8

/-- The heap that `platform_shmcreate` sets up. -/
def shmCreate (seg : ShmSegment) (memory : Nat → UInt8) : ShmHeap where
  shmNext := seg.start + seg.ctrlblockSize
  shmLastAlloc := 0
  shmLargeFragHip := 0
  shmLargeFrags := List.replicate shmNumLargeFrags emptyFrag
  totalBytes := seg.size
  usedBytes := 0
  freeBytes := seg.size - seg.ctrlblockSize
  usedBytesHwm := 0
  nfrees := 0
  nfreesLastFrag := 0
  usedByLargeFragsBytes := 0
  nlargeFragsTracked := 0
  nlargeFragsInuse := 0
  nlargeFragsInuseHwm := 0
  memory := memory

/-- The process and the thread that make a call. A process has a positive number. -/
structure Caller where
  pid : Nat
  tid : Nat
  pid_pos : 0 < pid

/-- `memset` to zero. -/
def zeroBytes (memory : Nat → UInt8) (ptr size : Nat) : Nat → UInt8 :=
  fun a => if ptr ≤ a ∧ a < ptr + size then 0 else memory a

/-- `memcpy`. -/
def copyBytes (memory : Nat → UInt8) (dst src size : Nat) : Nat → UInt8 :=
  fun a => if dst ≤ a ∧ a < dst + size then memory (src + (a - dst)) else memory a

/-! ## Large fragments -/

/-- The loop of `platform_shm_find_large`: the first free fragment that is large enough. A fragment
in use must not have a freeing thread. -/
def findFreeFrag (size : Nat) : List LargeFragInfo → Option (Option Nat)
  | [] => some none
  | frag :: frags =>
      if frag.fragAddr = 0 ∨ frag.fragSize < size then
        (findFreeFrag size frags).map fun found => found.map (· + 1)
      else if frag.fragFreedByPid = 0 then
        if frag.fragFreedByTid = 0 then
          (findFreeFrag size frags).map fun found => found.map (· + 1)
        else none
      else some (some 0)

/-- `platform_shm_find_large`: hands out a tracked fragment again, filled with zeros. -/
def shmFindLarge (caller : Caller) (size : Nat) (shm : ShmHeap) : Option (ShmHeap × Nat) :=
  match findFreeFrag size shm.shmLargeFrags with
  | none => none
  | some none => some (shm, 0)
  | some (some i) =>
      match shm.shmLargeFrags[i]? with
      | none => none
      | some frag =>
          some ({ shm with
            shmLargeFrags := shm.shmLargeFrags.set i { frag with
              fragAllocatedToPid := caller.pid
              fragAllocatedToTid := caller.tid
              fragFreedByPid := 0
              fragFreedByTid := 0 }
            nlargeFragsInuse := shm.nlargeFragsInuse + 1
            nlargeFragsInuseHwm :=
              if shm.nlargeFragsInuseHwm < shm.nlargeFragsInuse + 1 then shm.nlargeFragsInuse + 1
              else shm.nlargeFragsInuseHwm
            memory := zeroBytes shm.memory frag.fragAddr frag.fragSize }, frag.fragAddr)

/-- The loop of `platform_shm_track_large_alloc`: the first empty slot. The address must not be
tracked before it. -/
def findEmptyFrag (addr : Nat) : List LargeFragInfo → Option (Option Nat)
  | [] => some none
  | frag :: frags =>
      if frag.fragAddr = 0 then some (some 0)
      else if frag.fragAddr = addr then none
      else (findEmptyFrag addr frags).map fun found => found.map (· + 1)

/-- `platform_shm_track_large_alloc`: with a full table the fragment is not tracked. -/
def shmTrackLargeAlloc (caller : Caller) (addr size : Nat) (shm : ShmHeap) : Option ShmHeap :=
  match findEmptyFrag addr shm.shmLargeFrags with
  | none => none
  | some none => some shm
  | some (some i) =>
      some { shm with
        shmLargeFrags := shm.shmLargeFrags.set i
          { fragAddr := addr
            fragSize := size
            fragAllocatedToPid := caller.pid
            fragAllocatedToTid := caller.tid
            fragFreedByPid := 0
            fragFreedByTid := 0 }
        nlargeFragsTracked := shm.nlargeFragsTracked + 1
        nlargeFragsInuse := shm.nlargeFragsInuse + 1
        nlargeFragsInuseHwm :=
          if shm.nlargeFragsInuseHwm < shm.nlargeFragsInuse + 1 then shm.nlargeFragsInuse + 1
          else shm.nlargeFragsInuseHwm
        usedByLargeFragsBytes := shm.usedByLargeFragsBytes + size
        shmLargeFragHip := if shm.shmLargeFragHip < addr then addr else shm.shmLargeFragHip }

/-- `platform_shm_track_free`: marks a tracked fragment as free. Above the highest tracked address
there is none. -/
def shmTrackFree (caller : Caller) (addr : Nat) (shm : ShmHeap) : ShmHeap :=
  if shm.shmLargeFragHip < addr then shm
  else
    match shm.shmLargeFrags.findIdx? fun frag => frag.fragAddr ≠ 0 ∧ frag.fragAddr = addr with
    | none => shm
    | some i =>
        { shm with
          shmLargeFrags := shm.shmLargeFrags.modify i fun frag => { frag with
            fragFreedByPid := caller.pid
            fragFreedByTid := caller.tid }
          nlargeFragsInuse := shm.nlargeFragsInuse - 1 }

/-! ## The calls -/

/-- The part of `platform_shm_alloc` that takes memory behind the last fragment. The sums are those
of 64 bits. -/
def shmBump (seg : ShmSegment) (size : Nat) (shm : ShmHeap) : ShmHeap × Nat :=
  if seg.shmEnd < (shm.shmNext + size) % 2 ^ 64 then
    -- The pointer is moved up and back again.
    (shm, 0)
  else
    ({ shm with
      shmNext := (shm.shmNext + size) % 2 ^ 64
      shmLastAlloc := shm.shmNext
      usedBytes := (shm.usedBytes + size) % 2 ^ 64
      freeBytes := (shm.freeBytes + 2 ^ 64 - size) % 2 ^ 64
      usedBytesHwm :=
        if shm.usedBytesHwm < (shm.usedBytes + size) % 2 ^ 64 then
          (shm.usedBytes + size) % 2 ^ 64
        else shm.usedBytesHwm }, shm.shmNext)

def shmAllocNew (seg : ShmSegment) (caller : Caller) (size : Nat) (shm : ShmHeap) :
    Option (ShmHeap × Nat) :=
  match shmBump seg size shm with
  | (shm, ptr) =>
      if ptr ≠ 0 ∧ seg.largeFragSize ≤ size then
        (shmTrackLargeAlloc caller ptr size shm).map fun shm => (shm, ptr)
      else some (shm, ptr)

/-- `platform_shm_alloc`. -/
def shmAlloc (seg : ShmSegment) (caller : Caller) (size : Nat) (shm : ShmHeap) :
    Option (ShmHeap × Nat) :=
  if shm.shmNext % cachelineSize = 0 then
    if seg.largeFragSize ≤ size then
      match shmFindLarge caller size shm with
      | none => none
      | some (shm, ptr) =>
          if ptr ≠ 0 then some (shm, ptr) else shmAllocNew seg caller size shm
    else shmAllocNew seg caller size shm
  else none

/-- `platform_shm_free`: the fragment allocated last is taken back when it is small; another one is
looked up among the tracked fragments. -/
def shmFree (seg : ShmSegment) (caller : Caller) (ptr : Nat) (shm : ShmHeap) : ShmHeap :=
  if seg.first ≤ ptr ∧ ptr < seg.shmEnd then
    if shm.shmLastAlloc = ptr ∧ shm.shmNext - ptr < seg.largeFragSize then
      { shm with
        nfrees := shm.nfrees + 1
        shmNext := ptr
        shmLastAlloc := 0
        freeBytes := (shm.freeBytes + (shm.shmNext - ptr)) % 2 ^ 64
        usedBytes := (shm.usedBytes + 2 ^ 64 - (shm.shmNext - ptr)) % 2 ^ 64
        nfreesLastFrag := shm.nfreesLastFrag + 1 }
    else shmTrackFree caller ptr { shm with nfrees := shm.nfrees + 1 }
  else shm

/-- `platform_shm_realloc` of a fragment: as many bytes are copied as the old one has. -/
def shmRealloc (seg : ShmSegment) (caller : Caller) (oldptr oldsize newsize : Nat)
    (shm : ShmHeap) : Option (ShmHeap × Nat) :=
  match shmAlloc seg caller newsize shm with
  | none => none
  | some (shm, ptr) =>
      if ptr ≠ 0 then
        some (shmFree seg caller oldptr
          { shm with memory := copyBytes shm.memory ptr oldptr oldsize }, ptr)
      else some (shm, 0)

/-! ## Sequences of calls -/

/-- The heap with the fragments that are live. -/
structure ShmState where
  shm : ShmHeap
  live : List Region

/-- A call on the heap. -/
inductive ShmCall where
  | alloc (caller : Caller) (size : Nat)
  | free (caller : Caller) (frag : Region)
  | realloc (caller : Caller) (frag : Region) (newsize : Nat)

/-- A size that a caller may ask for: positive, a multiple of the cache line, and such that the end
of the fragment is an address. -/
def SizeAllowed (shm : ShmHeap) (size : Nat) : Prop :=
  0 < size ∧ size % cachelineSize = 0 ∧ shm.shmNext + size < 2 ^ 64

/-- The calls that may be made: on live fragments, and for sizes that may be asked for. -/
def CallAllowed (s : ShmState) : ShmCall → Prop
  | .alloc _ size => SizeAllowed s.shm size
  | .free _ frag => frag ∈ s.live
  | .realloc _ frag newsize => frag ∈ s.live ∧ SizeAllowed s.shm newsize

/-- The live fragments after a call that returned `ptr`. -/
def addLive (live : List Region) (ptr size : Nat) : List Region :=
  if ptr = 0 then live else { base := ptr, size := size } :: live

def ShmCall.run (seg : ShmSegment) : ShmCall → ShmState → Option (ShmState × Nat)
  | .alloc caller size, s =>
      (shmAlloc seg caller size s.shm).map fun r =>
        ({ shm := r.1, live := addLive s.live r.2 size }, r.2)
  | .free caller frag, s =>
      some ({ shm := shmFree seg caller frag.base s.shm, live := s.live.erase frag }, 0)
  | .realloc caller frag newsize, s =>
      (shmRealloc seg caller frag.base frag.size newsize s.shm).map fun r =>
        ({ shm := r.1,
           live := if r.2 = 0 then s.live else addLive (s.live.erase frag) r.2 newsize }, r.2)

def ShmState.withMemory (s : ShmState) (memory : Nat → UInt8) : ShmState where
  shm := { s.shm with memory := memory }
  live := s.live

/-- The sequences of whole calls on a new heap. Between calls the fragments are written to, so the
contents of the memory are then any. -/
def shmSystem (seg : ShmSegment) : System ShmState ShmCall where
  init := fun s => s.live = [] ∧ ∃ memory, s.shm = shmCreate seg memory
  step := fun s call s' =>
    CallAllowed s call ∧
      ∃ s₁ ptr memory, call.run seg s = some (s₁, ptr) ∧ s' = s₁.withMemory memory

end Platform
end TreePass
