import TreePass.Data
import TreePass.Filter.Block

/-!
# Adding fingerprints to a routing filter

`routing_filter_add` builds a new filter from an old one and a list of fingerprints. It sorts the
new fingerprints, combines them with their value and drops repetitions. Then it reads the old filter
index by index, brings its words to the new width of the values, and merges both streams into the
new indices, of which several may cover one old index.

A new index ends early where the next word is behind it, which only an old word can be.

The model has `none` where the code fails an assertion, shifts by the width of a word or more, or
writes behind the end of a buffer, a page or the array of index pages. Where the blocks are on the
pages is left out.
-/

namespace TreePass
namespace Filter

open Lib

/-- `UINT32_MAX`. -/
def uint32Max : Nat := 2 ^ 32 - 1

/-- `routing_filter` with the blocks its index pages refer to; a null filter is not present. -/
structure RoutingFilter where
  present : Bool
  numFingerprints : Nat
  numUnique : Nat
  valueSize : Nat
  indices : List IndexBlock
  deriving DecidableEq, Repr

/-- `NULL_ROUTING_FILTER`. -/
def nullRoutingFilter : RoutingFilter where
  present := false
  numFingerprints := 0
  numUnique := 0
  valueSize := 0
  indices := []

/-! ## The new fingerprints -/

/-- The loop that drops repetitions: a fingerprint stays if it differs from the last that stayed. -/
def dropRepeats (fps : List Nat) : List Nat :=
  fps.foldl (fun dst fp => if dst.getLast? = some fp then dst else dst ++ [fp]) []

/-- `fp_arr`: the new fingerprints at their size, sorted, with the value and without repetitions. -/
def prepareFps (cfg : RoutingConfig) (newFpArr : List UInt32) (value : UInt16) (valueSize : Nat) :
    Option (List Nat) :=
  let data := newFpArr.map fun fp => fp.toNat >>> (32 - cfg.fingerprintSize)
  match radixSort data (List.replicate newFpArr.length 0) cfg.fingerprintSize with
  | none => none
  | some fps => some (dropRepeats (fps.map fun fp => fp <<< valueSize ||| value.toNat))

/-- `routing_get_index`. -/
def routingGetIndex (fp bits : Nat) : Nat := if bits = 32 then 0 else fp >>> bits

/-- `index_count`: how many of the fingerprints are in each index. -/
def indexCounts (bits : Nat) : Nat → Nat → List Nat → List Nat
  | 0, _, _ => []
  | left + 1, indexNo, fps =>
      let count := (fps.takeWhile fun fp => decide (routingGetIndex fp bits = indexNo)).length
      count :: indexCounts bits left (indexNo + 1) (fps.drop count)

/-! ## The old filter -/

/-- Moves the fingerprint of an old word to the left of a wider value. -/
def widenValue (oldValueSize valueSize fp : Nat) : Nat :=
  let oldValue := fp &&& (2 ^ oldValueSize - 1)
  (fp - oldValue) <<< (valueSize - oldValueSize) ||| oldValue

/-- Reads an index of the old filter into `old_fp_buffer`, and gives its number of words. -/
def readOldIndex (cfg : RoutingConfig) (old : RoutingFilter) (valueSize oldIndexNo : Nat)
    (buffer : List Nat) : Option (List Nat × Nat) :=
  if old.present then
    match old.indices[oldIndexNo]? with
    | none => none
    | some block =>
        match getBucketCounts cfg.indexSize block.encoding with
        | none => none
        | some counts =>
            if block.numRemainders = 0 then some (buffer, 0)
            else if block.numRemainders ≤ routingFpsPerPage then
              let bits := cfg.remainderAndValueSize old.numFingerprints old.valueSize
              let fps := addBuckets bits (oldIndexNo * cfg.indexSize) counts
                (packedArrayUnpack bits block.remainders buffer)
              if old.valueSize ≠ valueSize then
                some ((fps.take block.numRemainders).map (widenValue old.valueSize valueSize) ++
                  fps.drop block.numRemainders, block.numRemainders)
              else some (fps, block.numRemainders)
            else none
  else some (buffer, 0)

/-! ## The merge loop of an index -/

/-- The variables of the merge loop. -/
structure MergeState where
  numUnique : Nat
  lastBucket : Nat
  lastFpAdded : Nat
  headerBit : Nat
  /-- `encoding_buffer` -/
  encoding : List Bool
  /-- `dst_fp[0 .. fps_added)` -/
  dst : List Nat

/-- The next word, whether it is an old one, and what is left of both streams. -/
def nextFp : List Nat → List Nat → Option (Bool × Nat × List Nat × List Nat)
  | [], [] => none
  | o :: old, [] => some (true, o, old, [])
  | [], n :: new => some (false, n, [], new)
  | o :: old, n :: new =>
      if o ≤ n then some (true, o, old, n :: new) else some (false, n, o :: old, new)

/-- Counts a word whose fingerprint differs from the last one added. -/
def countFp (valueSize : Nat) (s : MergeState) (fp : Nat) : MergeState :=
  if s.lastFpAdded >>> valueSize ≠ fp >>> valueSize then
    { s with numUnique := (s.numUnique + 1) % 2 ^ 32 }
  else s

/-- Adds a word to the index. There is no result behind the end of a buffer. -/
def appendFp (bits : Nat) (s : MergeState) (fp : Nat) : Option MergeState :=
  let bucket := fp >>> bits
  let headerBit := s.headerBit + (bucket - s.lastBucket)
  if headerBit < routingFpsPerPage ∧ s.dst.length < routingFpsPerPage then
    some { s with
      lastBucket := bucket
      lastFpAdded := fp
      headerBit := headerBit + 1
      encoding := s.encoding.set headerBit false
      dst := s.dst ++ [fp &&& (2 ^ bits - 1)] }
  else none

/-- The merge loop: the old words that are left, and the state at its end. The first argument is
the number of words, of which each round but the last takes one. -/
def mergeIndex (valueSize bits endBucket : Nat) :
    Nat → List Nat → List Nat → MergeState → Option (List Nat × MergeState)
  | 0, old, _, s => some (old, s)
  | rounds + 1, old, new, s =>
      match nextFp old new with
      | none => some (old, s)
      | some (isOld, fp, old', new') =>
          let s := countFp valueSize s fp
          if endBucket ≤ fp >>> bits then
            -- Only an old word can be here; it is given back.
            if isOld then some (old, s) else none
          else
            match appendFp bits s fp with
            | none => none
            | some s => mergeIndex valueSize bits endBucket rounds old' new' s

/-! ## The indices -/

/-- What the loops over the indices carry along. -/
structure AddState where
  /-- `fp_arr` from `fp_no` on -/
  newFps : List Nat
  /-- `old_src_fp` from `old_fps_added` on -/
  oldFps : List Nat
  numUnique : Nat
  encoding : List Bool
  indices : List IndexBlock

/-- `encoding_size`, in bytes. -/
def encodingSize (cfg : RoutingConfig) (fpsAdded : Nat) : Nat :=
  (fpsAdded + cfg.indexSize - 1) / 8 + 4

/-- `remainder_block_size`: without words the subtraction wraps, and the 32-bit result is three. -/
def remainderBlockSize (bits fpsAdded : Nat) : Nat :=
  if fpsAdded * bits = 0 then 3 else (fpsAdded * bits - 1) / 8 + 4

def addIndex (cfg : RoutingConfig) (valueSize bits : Nat) (counts : List Nat) (indexNo : Nat)
    (s : AddState) : Option AddState :=
  match counts[indexNo]? with
  | none => none
  | some count =>
      match mergeIndex valueSize bits ((indexNo + 1) * cfg.indexSize) (s.oldFps.length + count)
          s.oldFps (s.newFps.take count)
          { numUnique := s.numUnique
            lastBucket := indexNo * cfg.indexSize
            lastFpAdded := uint32Max
            headerBit := 0
            encoding := s.encoding
            dst := [] } with
      | none => none
      | some (oldFps, m) =>
          let encodingBits := 8 * encodingSize cfg m.dst.length
          let headerSize := encodingSize cfg m.dst.length + 2
          if headerSize + remainderBlockSize bits m.dst.length ≤ cfg.pageSize ∧
              encodingBits ≤ routingFpsPerPage ∧
              indexNo / (cfg.pageSize / 8) < cfg.pagesPerExtent then
            some
              { newFps := s.newFps.drop count
                oldFps := oldFps
                numUnique := m.numUnique
                encoding := List.replicate encodingBits true ++ m.encoding.drop encodingBits
                indices := s.indices ++
                  [{ numRemainders := m.dst.length
                     encoding := m.encoding.take encodingBits
                     remainders := m.dst }] }
          else none

def addIndices (cfg : RoutingConfig) (valueSize bits : Nat) (counts : List Nat) :
    Nat → Nat → AddState → Option AddState
  | 0, _, s => some s
  | left + 1, indexNo, s =>
      match addIndex cfg valueSize bits counts indexNo s with
      | none => none
      | some s => addIndices cfg valueSize bits counts left (indexNo + 1) s

def addOldIndices (cfg : RoutingConfig) (old : RoutingFilter) (valueSize bits : Nat)
    (counts : List Nat) (newIndicesPerOldIndex : Nat) :
    Nat → Nat → List Nat → AddState → Option AddState
  | 0, _, _, s => some s
  | left + 1, oldIndexNo, buffer, s =>
      match readOldIndex cfg old valueSize oldIndexNo buffer with
      | none => none
      | some (buffer, oldIndexCount) =>
          match addIndices cfg valueSize bits counts newIndicesPerOldIndex
              (oldIndexNo * newIndicesPerOldIndex)
              { s with oldFps := buffer.take oldIndexCount } with
          | none => none
          | some s =>
              addOldIndices cfg old valueSize bits counts newIndicesPerOldIndex left
                (oldIndexNo + 1) buffer s

/-! ## The whole function -/

/-- `value_size`: the bits of a value. -/
def valueSizeOf (value : UInt16) : Nat := if value = 0 then 0 else Nat.log2 value.toNat + 1

/-- `filter->num_fingerprints`, a 32-bit sum. -/
def newNumFingerprints (old : RoutingFilter) (newFpArr : List UInt32) : Nat :=
  (newFpArr.length + old.numFingerprints) % 2 ^ 32

/-- `old_num_indices`. -/
def oldNumIndices (cfg : RoutingConfig) (old : RoutingFilter) : Nat :=
  if old.present then cfg.numIndices old.numFingerprints else 1

/-- **The arithmetic of the parameters is defined**: the assertions on the widths, counts that the
32-bit loops reach, and no shift by as much as the width of a word. -/
def ParametersDefined (cfg : RoutingConfig) (old : RoutingFilter) (newFpArr : List UInt32)
    (valueSize : Nat) : Prop :=
  let n := newNumFingerprints old newFpArr
  newFpArr.length < 2 ^ 32 ∧ 0 < n ∧ 0 < cfg.fingerprintSize ∧
    cfg.fingerprintSize + valueSize ≤ 32 ∧ cfg.logNumBuckets n ≤ cfg.fingerprintSize ∧
    cfg.remainderAndValueSize n valueSize < 32 ∧
    (old.present = true → cfg.fingerprintSize + old.valueSize ≤ 32 ∧ old.valueSize ≤ valueSize)

instance (cfg : RoutingConfig) (old : RoutingFilter) (newFpArr : List UInt32) (valueSize : Nat) :
    Decidable (ParametersDefined cfg old newFpArr valueSize) := by
  unfold ParametersDefined
  infer_instance

/-- `routing_filter_add`, with a flag for the allocation of the buffers. -/
def routingFilterAdd (cfg : RoutingConfig) (memory : Bool) (old : RoutingFilter)
    (newFpArr : List UInt32) (value : UInt16) : Option (Except PlatformStatus RoutingFilter) :=
  let valueSize := valueSizeOf value
  let n := newNumFingerprints old newFpArr
  let bits := cfg.remainderAndValueSize n valueSize
  if ParametersDefined cfg old newFpArr valueSize then
    if memory then
      match prepareFps cfg newFpArr value valueSize with
      | none => none
      | some fps =>
          let counts := indexCounts (bits + cfg.logIndexSize) (cfg.numIndices n) 0 fps
          match addOldIndices cfg old valueSize bits counts
              (cfg.numIndices n / oldNumIndices cfg old) (oldNumIndices cfg old) 0
              (List.replicate routingFpsPerPage 0)
              { newFps := fps
                oldFps := []
                numUnique := 0
                encoding := List.replicate routingFpsPerPage true
                indices := [] } with
          | none => none
          | some s =>
              some (.ok
                { present := true
                  numFingerprints := n
                  numUnique := s.numUnique
                  valueSize := valueSize
                  indices := s.indices })
    else some (.error .noMemory)
  else none

end Filter
end TreePass
