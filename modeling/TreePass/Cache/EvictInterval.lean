import TreePass.Lib.Transition
import Mathlib.Algebra.Group.Nat.Defs
import Mathlib.Data.Fin.Basic
import Mathlib.Logic.Function.Basic

/-!
# The eviction interval under interference

A first pass over a batch counts itself, and the thread whose pass ends a cycle over all batches
measures how long a cycle takes.  It reads the last cycle that was committed and the time of that
commit, one after the other, and commits its own cycle with a compare-and-exchange; after that it
stores the new interval and the time.

* `EiPc` is the place of a thread in `treepass_evict_batch`, behind its sweep.
* `EiState` has the shared words, and the commits made so far, which are no part of the program.
* `eiNext` is one access of one thread, or one look at the clock.

The counter of passes and the cycles have 32 bits.  The interval is computed in floating point, which
is a parameter.
-/

namespace TreePass
namespace Cache

open Lib

/-! ## State -/

/-- What `treepass_evict_batch` reads of the configuration. -/
structure EiConfig where
  /-- `batch_capacity`. -/
  batchCap : Nat
  /-- The interval that the first update sets: `ei_initial_per_gb_ns` for each GiB. -/
  initialEi : Nat
  /-- The weighted average of a measured time and the old interval. -/
  ewma : Nat → Nat → Nat

/-- `EI_NOT_READY`. -/
def eiNotReady : Nat := 0

/-- Where a thread is, with its local variables.  The first five are before its accesses, and the
last three before its stores. -/
inductive EiPc where
  | idle
  | timestamp (cycle : Nat)
  | loadCycle (cycle now : Nat)
  | loadTs (cycle now expected : Nat)
  | loadEi (cycle now expected lastTs : Nat)
  | cas (cycle now expected lastTs newEi : Nat)
  | storeEi (now newEi : Nat)
  | storeTs (now : Nat)
  | storeCheckTs (now : Nat)
  deriving DecidableEq, Repr

/-- A committed update: its cycle and timestamp, and the interval with the time and the number of
cycles that it was computed from. -/
structure EiCommit where
  cycle : Nat
  now : Nat
  elapsed : Nat
  numCycles : Nat
  newEi : Nat
  deriving DecidableEq, Repr

/-- The shared words of `n + 1` threads, with the places of the threads. -/
structure EiState (n : Nat) where
  evictBatches : Nat
  lastEiCheckCycle : Nat
  lastCycleTs : Nat
  evictIntervalThre : Nat
  lastEiCheckTs : Nat
  /-- The last timestamp that was given out. -/
  clock : Nat
  pc : Fin (n + 1) → EiPc
  /-- The committed updates, the latest first. -/
  commits : List EiCommit

/-- One access: of a thread, and at what time if it looks at the clock. -/
structure EiAct (n : Nat) where
  thread : Fin (n + 1)
  time : Nat

variable {n : Nat} (cfg : EiConfig)

/-- The cache is set up, and `last_cycle_ts` is the time of this. -/
def EiState.init (ts : Nat) : EiState n where
  evictBatches := 0
  lastEiCheckCycle := 0
  lastCycleTs := ts
  evictIntervalThre := eiNotReady
  lastEiCheckTs := 0
  clock := ts
  pc _ := .idle
  commits := []

def boundaryCycle : List EiCommit → Nat
  | [] => 0
  | commit :: _ => commit.cycle

/-- The timestamp of the last commit, and `ts` before the first. -/
def boundaryTs (ts : Nat) : List EiCommit → Nat
  | [] => ts
  | commit :: _ => commit.now

/-! ## Accesses -/

namespace EiState

variable (s : EiState n)

def setPc (t : Fin (n + 1)) (pc : EiPc) : EiState n := { s with pc := Function.update s.pc t pc }

/-- `__sync_add_and_fetch` on `evict_batches` after a first pass: whether a cycle ends. -/
def countBatch (t : Fin (n + 1)) : EiState n :=
  let batches := (s.evictBatches + 1) % 2 ^ 32
  let cycle := batches / cfg.batchCap
  { s with evictBatches := batches }.setPc t
    (if batches % cfg.batchCap = 0 ∧ 0 < cycle then .timestamp cycle else .idle)

/-- The compare-and-exchange of `last_ei_check_cycle`. -/
def commit (t : Fin (n + 1)) (cycle now expected lastTs newEi : Nat) : EiState n :=
  if s.lastEiCheckCycle = expected then
    { s with
      lastEiCheckCycle := cycle
      commits := ⟨cycle, now, now - lastTs, cycle - expected, newEi⟩ :: s.commits }.setPc t
        (.storeEi now newEi)
  else s.setPc t .idle

end EiState

/-- `new_ei`. -/
def newEi (ei avgSweepTime : Nat) : Nat :=
  if ei = eiNotReady then cfg.initialEi else cfg.ewma avgSweepTime ei

/-- One access of a thread.  An idle thread ends the sweep of a first pass. -/
def eiNext (s : EiState n) (a : EiAct n) : Option (EiState n) :=
  match s.pc a.thread with
  | .idle => some (s.countBatch cfg a.thread)
  | .timestamp cycle =>
      if s.clock < a.time then
        some ({ s with clock := a.time }.setPc a.thread (.loadCycle cycle a.time))
      else none
  | .loadCycle cycle now =>
      some (s.setPc a.thread
        (if cycle ≤ s.lastEiCheckCycle then .idle else .loadTs cycle now s.lastEiCheckCycle))
  | .loadTs cycle now expected =>
      some (s.setPc a.thread
        (if now ≤ s.lastCycleTs then .idle else .loadEi cycle now expected s.lastCycleTs))
  | .loadEi cycle now expected lastTs =>
      let avgSweepTime := (now - lastTs) / (cycle - expected)
      some (s.setPc a.thread
        (.cas cycle now expected lastTs (newEi cfg s.evictIntervalThre avgSweepTime)))
  | .cas cycle now expected lastTs newEi =>
      some (s.commit a.thread cycle now expected lastTs newEi)
  | .storeEi now newEi =>
      some ({ s with evictIntervalThre := newEi }.setPc a.thread (.storeTs now))
  | .storeTs now => some ({ s with lastCycleTs := now }.setPc a.thread (.storeCheckTs now))
  | .storeCheckTs now => some ({ s with lastEiCheckTs := now }.setPc a.thread .idle)

/-- All interleavings of first passes by `n + 1` threads. -/
def eiSystem (n ts : Nat) : System (EiState n) (EiAct n) :=
  .ofFun (· = EiState.init ts) (eiNext cfg)

end Cache
end TreePass
