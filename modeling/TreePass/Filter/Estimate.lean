import TreePass.Filter.UniqueCount
import TreePass.Lib.HeadMerge

/-!
# Estimating the distinct fingerprints of several filters

`routing_filter_estimate_unique_fp` looks at the lowest sixteenth of the indices of each filter. It
unpacks their words into one array, behind the words it has read, and moves the distinct
fingerprints to the front of the same array, so that those of each filter are sorted and in one
piece. Then it merges the pieces by their heads and multiplies the number of rounds by sixteen.

The model has `none` where an assertion fails, and where an array is read or written behind its
end. Prefetching is left out.
-/

namespace TreePass
namespace Filter

open Lib

/-- `MAX_FILTERS`. -/
def maxFilters : Nat := 32

/-! ## Collecting the fingerprints -/

/-- The variables of the loops over the filters. -/
structure EstimateState where
  /-- `fp_arr`, which has `buffer_size` elements -/
  fpArr : List Nat
  srcFpNo : Nat
  dstFpNo : Nat
  lastFp : Nat
  fpStart : List Nat

/-- Restores the fingerprint of one word, and keeps it if it differs from the last. -/
def collectFp (bits valueSize bucket : Nat) (s : EstimateState) : Option EstimateState :=
  match s.fpArr[s.srcFpNo]? with
  | none => none
  | some word =>
      let fp := (word ||| bucket <<< bits) >>> valueSize
      let fpArr := s.fpArr.set s.srcFpNo fp
      if fp = s.lastFp then some { s with fpArr := fpArr, srcFpNo := s.srcFpNo + 1 }
      else if s.dstFpNo < fpArr.length then
        some { s with
          fpArr := fpArr.set s.dstFpNo fp
          srcFpNo := s.srcFpNo + 1
          dstFpNo := s.dstFpNo + 1
          lastFp := fp }
      else none

def collectBucket (bits valueSize bucket : Nat) : Nat → EstimateState → Option EstimateState
  | 0, s => some s
  | count + 1, s =>
      match collectFp bits valueSize bucket s with
      | none => none
      | some s => collectBucket bits valueSize bucket count s

def collectBuckets (bits valueSize : Nat) :
    Nat → List Nat → EstimateState → Option EstimateState
  | _, [], s => some s
  | bucket, count :: counts, s =>
      match collectBucket bits valueSize bucket count s with
      | none => none
      | some s => collectBuckets bits valueSize (bucket + 1) counts s

def collectIndex (cfg : RoutingConfig) (f : RoutingFilter) (indexNo : Nat) (s : EstimateState) :
    Option EstimateState :=
  let bits := cfg.remainderAndValueSize f.numFingerprints f.valueSize
  match f.indices[indexNo]? with
  | none => none
  | some block =>
      match getBucketCounts cfg.indexSize block.encoding with
      | none => none
      | some counts =>
          if s.srcFpNo + block.numRemainders ≤ s.fpArr.length then
            if block.numRemainders = 0 then some s
            else
              collectBuckets bits f.valueSize (indexNo * cfg.indexSize) counts
                { s with
                  fpArr := s.fpArr.take s.srcFpNo ++
                    packedArrayUnpack bits block.remainders (s.fpArr.drop s.srcFpNo)
                  lastFp := uint32Max }
          else none

def collectIndices (cfg : RoutingConfig) (f : RoutingFilter) :
    Nat → Nat → EstimateState → Option EstimateState
  | 0, _, s => some s
  | left + 1, indexNo, s =>
      match collectIndex cfg f indexNo s with
      | none => none
      | some s => collectIndices cfg f left (indexNo + 1) s

/-- One filter: a null filter and a filter with few indices give nothing. The buffers are read and
written without a check that they were allocated. -/
def collectFilter (cfg : RoutingConfig) (memory : Bool) (f : RoutingFilter) (s : EstimateState) :
    Option EstimateState :=
  if f.present then
    if cfg.fingerprintSize + f.valueSize ≤ 32 then
      if 16 ≤ cfg.numIndices f.numFingerprints then
        if memory then collectIndices cfg f (cfg.numIndices f.numFingerprints / 16) 0 s
        else none
      else some s
    else none
  else some s

/-- The loop over the filters, which sets `fp_start[i + 1]` after each. -/
def collectFilters (cfg : RoutingConfig) (memory : Bool) :
    List RoutingFilter → Nat → EstimateState → Option EstimateState
  | [], _, s => some s
  | f :: filters, i, s =>
      match collectFilter cfg memory f s with
      | none => none
      | some s =>
          if i + 1 < s.fpStart.length then
            collectFilters cfg memory filters (i + 1)
              { s with fpStart := s.fpStart.set (i + 1) s.dstFpNo }
          else none

/-! ## Counting the union -/

/-- The least fingerprint at the positions `idx`, from filter `i` on. -/
def minFp (fpArr fpStart idx : List Nat) : Nat → Nat → Nat → Option Nat
  | 0, _, m => some m
  | left + 1, i, m =>
      match idx[i]?, fpStart[i + 1]? with
      | some k, some stop =>
          if k ≠ stop then
            match fpArr[k]? with
            | some fp => minFp fpArr fpStart idx left (i + 1) (if fp < m then fp else m)
            | none => none
          else minFp fpArr fpStart idx left (i + 1) m
      | _, _ => none

def advanceIdx (fpArr fpStart : List Nat) (m : Nat) : Nat → Nat → List Nat → Option (List Nat)
  | 0, _, idx => some idx
  | left + 1, i, idx =>
      match idx[i]?, fpStart[i + 1]? with
      | some k, some stop =>
          if k ≠ stop then
            match fpArr[k]? with
            | some fp =>
                advanceIdx fpArr fpStart m left (i + 1) (if fp = m then idx.set i (k + 1) else idx)
            | none => none
          else advanceIdx fpArr fpStart m left (i + 1) idx
      | _, _ => none

/-- The rounds of the merge. There are at most as many as the array has elements, and one more that
ends the loop. -/
def countUnique (fpArr fpStart : List Nat) (numFilters : Nat) : Nat → List Nat → Nat → Option Nat
  | 0, _, _ => none
  | rounds + 1, idx, numUnique =>
      match minFp fpArr fpStart idx numFilters 0 uint32Max with
      | none => none
      | some m =>
          if m = uint32Max then some numUnique
          else
            match advanceIdx fpArr fpStart m numFilters 0 idx with
            | none => none
            | some idx =>
                countUnique fpArr fpStart numFilters rounds idx ((numUnique + 1) % 2 ^ 32)

/-! ## The whole function -/

/-- `total_num_fp`, a 32-bit sum. -/
def totalNumFp (filters : List RoutingFilter) : Nat :=
  filters.foldl (fun total f => (total + f.numFingerprints) % 2 ^ 32) 0

/-- `routing_filter_estimate_unique_fp`. -/
def routingFilterEstimateUniqueFp (cfg : RoutingConfig) (memory : Bool)
    (filters : List RoutingFilter) : Option Nat :=
  if filters.length ≤ maxFilters then
    let bufferSize := totalNumFp filters / 12
    match collectFilters cfg memory filters 0
        { fpArr := List.replicate bufferSize 0
          srcFpNo := 0
          dstFpNo := 0
          lastFp := uint32Max
          fpStart := List.replicate maxFilters 0 } with
    | none => none
    | some s =>
        match countUnique s.fpArr s.fpStart filters.length (bufferSize + 1) s.fpStart 0 with
        | none => none
        | some numUnique => some (numUnique * 16 % 2 ^ 32)
  else none

end Filter
end TreePass
