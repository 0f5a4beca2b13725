import TreePass.Lib.Stretches
import TreePass.Cache.MappingInv

/-!
# The writeback of a batch

`treepass_batch_start_writeback` once more, with the two things that its model among the operations
of the cache leaves out: the addresses of the writes, and the assertion that nobody waits for a page
that it tries to put in writeback.  Pages that are being loaded may have waiters.

* `batchWriteback` is the function.  An assertion that fails has no result.
* `Writes` says which frames are to be written, `Blocks` which assertions fail.
* `marked` are frames some of which have been put in writeback.
-/

namespace TreePass
namespace Cache

open Lib

/-! ## The function -/

/-- A write that is issued: page `i` of the frames goes `i` pages behind the first address. -/
structure WriteIo where
  firstAddr : Nat
  entries : List Nat
  numPasses : Nat
  deriving DecidableEq, Repr

/-- `treepass_try_set_writeback`, with its assertion. -/
def trySetWritebackAsserted (waiters : Nat → Bool) (cc : TreePassCache)
    (entryNumber numPasses : Nat) : Option (Bool × TreePassCache) :=
  if waiters entryNumber then none else some (trySetWriteback cc entryNumber numPasses)

def walkBackwards (cfg : CacheConfig) (waiters : Nat → Bool) (addr numPasses : Nat) :
    Nat → TreePassCache → Nat → Option (TreePassCache × Nat)
  | 0, cc, firstAddr => some (cc, firstAddr)
  | fuel + 1, cc, firstAddr =>
      if firstAddr < cc.pageSize || !pagesShareExtent cfg cc (firstAddr - cc.pageSize) addr then
        some (cc, firstAddr)
      else
        match cc.lookupAddr (firstAddr - cc.pageSize) with
        | none => some (cc, firstAddr)
        | some next =>
            match trySetWritebackAsserted waiters cc next numPasses with
            | none => none
            | some (false, cc') => some (cc', firstAddr)
            | some (true, cc') =>
                walkBackwards cfg waiters addr numPasses fuel cc' (firstAddr - cc.pageSize)

def walkForwards (cfg : CacheConfig) (waiters : Nat → Bool) (addr numPasses : Nat) :
    Nat → TreePassCache → Nat → Option (TreePassCache × Nat)
  | 0, cc, lastAddr => some (cc, lastAddr + cc.pageSize)
  | fuel + 1, cc, lastAddr =>
      if !pagesShareExtent cfg cc (lastAddr + cc.pageSize) addr then
        some (cc, lastAddr + cc.pageSize)
      else
        match cc.lookupAddr (lastAddr + cc.pageSize) with
        | none => some (cc, lastAddr + cc.pageSize)
        | some next =>
            match trySetWritebackAsserted waiters cc next numPasses with
            | none => none
            | some (false, cc') => some (cc', lastAddr + cc.pageSize)
            | some (true, cc') =>
                walkForwards cfg waiters addr numPasses fuel cc' (lastAddr + cc.pageSize)

def writeOf (cc : TreePassCache) (firstAddr endAddr numPasses : Nat) : WriteIo where
  firstAddr := firstAddr
  entries := (List.range ((endAddr - firstAddr) >>> cc.logPageSize)).filterMap fun i =>
    cc.lookupAddr (firstAddr + i <<< cc.logPageSize)
  numPasses := numPasses

/-- `treepass_batch_start_writeback` for one frame, with the write that is issued. -/
def entryWriteback (cfg : CacheConfig) (waiters : Nat → Bool) (numPasses entryNumber : Nat)
    (cc : TreePassCache) : Option (TreePassCache × List WriteIo) :=
  let e := cc.entry entryNumber
  if 0 < numPasses ∧ numPasses < tpClockMax.toNat ∧ e.type ≠ .branch then some (cc, [])
  else if e.okToWriteback numPasses then
    match trySetWritebackAsserted waiters cc entryNumber numPasses with
    | none => none
    | some (false, cc') => some (cc', [])
    | some (true, cc') =>
        match e.diskAddr with
        | none => none
        | some addr =>
            match walkBackwards cfg waiters addr numPasses cfg.pagesPerExtent cc' addr with
            | none => none
            | some (cc', firstAddr) =>
                match walkForwards cfg waiters addr numPasses cfg.pagesPerExtent cc' addr with
                | none => none
                | some (cc', endAddr) => some (cc', [writeOf cc' firstAddr endAddr numPasses])
  else some (cc, [])

/-- The loop of `treepass_batch_start_writeback`. -/
def entriesWriteback (cfg : CacheConfig) (waiters : Nat → Bool) (numPasses : Nat) :
    List Nat → TreePassCache → Option (TreePassCache × List WriteIo)
  | [], cc => some (cc, [])
  | entryNumber :: entries, cc =>
      (entryWriteback cfg waiters numPasses entryNumber cc).bind fun first =>
        (entriesWriteback cfg waiters numPasses entries first.1).map fun rest =>
          (rest.1, first.2 ++ rest.2)

/-- `treepass_batch_start_writeback`. -/
def batchWriteback (cfg : CacheConfig) (waiters : Nat → Bool) (batch numPasses : Nat)
    (cc : TreePassCache) : Option (TreePassCache × List WriteIo) :=
  entriesWriteback cfg waiters numPasses (batchEntries batch) cc

/-! ## What it is to write -/

/-- Where every frame that is not free is mapped, and what is mapped is there. -/
structure FramesMapped (cc : TreePassCache) : Prop where
  mapped : ∀ e, (cc.entry e).has .free = false → ∃ p,
    (cc.entry e).diskAddr = some (p <<< cc.logPageSize) ∧ cc.lookup p = some e
  lookup : ∀ p e, cc.lookup p = some e →
    (cc.entry e).has .free = false ∧ (cc.entry e).diskAddr = some (p <<< cc.logPageSize)

def CanWrite (cc : TreePassCache) (numPasses p : Nat) : Prop :=
  ∃ e, cc.lookup p = some e ∧ (cc.entry e).okToWriteback numPasses = true

def Starts (cc : TreePassCache) (numPasses e : Nat) : Prop :=
  ¬ (0 < numPasses ∧ numPasses < tpClockMax.toNat ∧ (cc.entry e).type ≠ .branch)

/-- Two frames on one stretch of pages that may be written back. -/
def Together (cfg : CacheConfig) (cc : TreePassCache) (numPasses e e' : Nat) : Prop :=
  ∃ p p', cc.lookup p = some e ∧ cc.lookup p' = some e' ∧
    Stretch (CanWrite cc numPasses) cfg.pagesPerExtent p p'

/-- **The frames that are to be written**: those on a stretch with one that starts a write. -/
def Writes (cfg : CacheConfig) (cc : TreePassCache) (numPasses : Nat) (entries : List Nat)
    (e : Nat) : Prop :=
  ∃ seed ∈ entries, Starts cc numPasses seed ∧ Together cfg cc numPasses seed e

/-- Somebody waits for a page right before or behind the stretch of a frame, in its extent. -/
def Blocks (cfg : CacheConfig) (cc : TreePassCache) (waiters : Nat → Bool) (numPasses e : Nat) :
    Prop :=
  ∃ p q r w, cc.lookup p = some e ∧ Stretch (CanWrite cc numPasses) cfg.pagesPerExtent p q ∧
    (r + 1 = q ∨ r = q + 1) ∧ r / cfg.pagesPerExtent = p / cfg.pagesPerExtent ∧
    cc.lookup r = some w ∧ waiters w = true

/-- What a write must satisfy: each page goes to its own address, and all are in one extent. -/
structure WriteOk (cfg : CacheConfig) (cc : TreePassCache) (io : WriteIo) : Prop where
  nonempty : io.entries ≠ []
  length_le : io.entries.length ≤ cfg.pagesPerExtent
  addr : ∀ i e, io.entries[i]? = some e →
    (cc.entry e).diskAddr = some (io.firstAddr + i * cc.pageSize)
  extent : ∀ i, i < io.entries.length →
    pagesShareExtent cfg cc (io.firstAddr + i * cc.pageSize) io.firstAddr = true

def marked (cc : TreePassCache) (entries : List Nat) : TreePassCache :=
  { cc with entry := fun e =>
      if e ∈ entries then (cc.entry e).setStatus (setFlag (cc.entry e).status tpWriteback)
      else cc.entry e }

end Cache
end TreePass
