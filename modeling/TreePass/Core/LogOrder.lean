import TreePass.Btree.LeafOverflow
import TreePass.Core.Window
import Mathlib.Data.Fintype.Basic

/-!
# Insertions and the order of the log

`core_memtable_insert` with logging on: a thread takes the insert lock, inserts into the active
memtable, writes the record with the generation that `btree_insert` returns, and gives the lock
back.  A full memtable is rotated out, and the next one is a tree that `btree_create` has made.

* `LeafMemtable` is a memtable by its leaves; the inner nodes appear as the leaf that the descent
  for a key reaches.
* `btreeInsert` is an insertion into it, with defragmentation and split of the leaf.
* `insertions` is the system of all interleavings.  `applied` of a state is kept for the statements:
  the records in the order in which the memtables took them.
-/

namespace TreePass
namespace Core
namespace LogOrder

open Lib Btree

variable {K : Type} [LinearOrder K]

/-! ## Memtables by their leaves -/

/-- A memtable.  The leaves have numbers; addresses matter only for the links between them. -/
structure LeafMemtable (K : Type) where
  leaf : Nat → Page K
  numLeaves : Nat
  /-- The leaf that the descent for a key reaches. -/
  route : K → Nat
  /-- `num_extents` of the mini allocator. -/
  numExtents : Nat

/-- The sizes and callbacks of the store. -/
structure InsertConfig (K : Type) where
  btree : Config K
  /-- `merge_tuples`, as `btree_create_leaf_incorporate_spec` calls it. -/
  merge : K → Message → Message → Option Message
  maxExtentsPerMemtable : Nat
  /-- `laio_config_valid_page_size` allows only pages of 4096 bytes. -/
  hdr_le : sizeofHdr ≤ btree.pageSize

variable (cfg : InsertConfig K)

/-- `btree_create`. -/
def btreeCreate : LeafMemtable K :=
  ⟨fun _ => Page.init cfg.btree, 1, fun _ => 0, Window.initialExtents⟩

/-- `memtable_is_full`. -/
def memtableIsFull (mt : LeafMemtable K) : Bool :=
  decide (cfg.maxExtentsPerMemtable ≤ mt.numExtents)

/-- What the surroundings of an insertion decide: whether there is memory for the merge accumulator,
the addresses of the leaf and of a new one, and the extents the mini allocator takes. -/
structure Surroundings where
  initialized : Bool
  addr : Addr
  rightAddr : Addr
  newExtents : Nat
  deriving DecidableEq, Repr

variable (env : Surroundings)

/-- The leaf of an update: in place, or with room made for it; `none` if an assertion fails. -/
def incorporate (hdr : Page K) (spec : LeafIncorporateSpec K) : Option (OverflowResult K) :=
  match hdr.tryPerformLeafIncorporateSpec cfg.btree spec with
  | some (leaf, generation) => some (.whole leaf generation)
  | none => hdr.defragmentOrSplitLeaf cfg.btree env.addr env.rightAddr spec

namespace LeafMemtable

variable (mt : LeafMemtable K)

def leafOf (x : K) : Page K := mt.leaf (mt.route x)

/-- The memtable with what has become of a leaf, and the generation of the update.  After a split the
parent leads from the pivot on to the right leaf. -/
def replace (i : Nat) : OverflowResult K → LeafMemtable K × Nat
  | .whole leaf generation => ({ mt with leaf := Function.update mt.leaf i leaf }, generation)
  | .split pivot left right generation =>
      ({ mt with
          leaf := Function.update (Function.update mt.leaf i left) mt.numLeaves right
          numLeaves := mt.numLeaves + 1
          route := fun x =>
            if mt.route x = i ∧ pivot ≤ Key.user x then mt.numLeaves else mt.route x },
        generation)

def takeExtents (n : Nat) : LeafMemtable K := { mt with numExtents := mt.numExtents + n }

end LeafMemtable

/-- The parameters that `btree_insert` refuses. -/
def badParam (x : K) (msg : Message) : Prop :=
  maxInlineKeySize cfg.btree < cfg.btree.keyLength x ∨
    maxInlineMessageSize cfg.btree < msg.data.length ∨
    msg.type = .invalid ∨ msg.type = .pivotData

instance (x : K) (msg : Message) : Decidable (badParam cfg x msg) :=
  inferInstanceAs (Decidable (_ ∨ _ ∨ _ ∨ _))

def specFor (mt : LeafMemtable K) (x : K) (msg : Message) :
    Except PlatformStatus (LeafIncorporateSpec K) :=
  if badParam cfg x msg then .error .badParam
  else (mt.leafOf x).createLeafIncorporateSpec env.initialized cfg.merge x msg

/-- `btree_insert` on a memtable: the status or the generation, and the memtable after it; `none` if
an assertion fails. -/
def btreeInsert (mt : LeafMemtable K) (x : K) (msg : Message) :
    Option (Except PlatformStatus Nat × LeafMemtable K) :=
  match specFor cfg env mt x msg with
  | .error rc => some (.error rc, mt.takeExtents env.newExtents)
  | .ok spec =>
      (incorporate cfg env (mt.leafOf x) spec).map fun result =>
        let r := mt.replace (mt.route x) result
        (.ok r.2, r.1.takeExtents env.newExtents)

/-! ## The threads -/

/-- A record of the log, with the memtable that took the tuple. -/
structure LogRecord (K : Type) where
  key : K
  msg : Message
  generation : Nat
  memtable : Nat
  deriving DecidableEq, Repr

/-- Where a thread is in `core_memtable_insert`. -/
inductive InsertPc (K : Type) where
  | idle
  /-- Has the insert lock. -/
  | inserting
  /-- The memtable has the tuple; the record is to be written. -/
  | logging (record : LogRecord K)
  | unlocking
  deriving DecidableEq, Repr

/-- The store, as far as insertions go. -/
structure InsertState (τ K : Type) where
  memtable : LeafMemtable K
  /-- `generation` of the memtable context. -/
  generation : Nat
  thread : τ → InsertPc K
  applied : List (LogRecord K)
  log : List (LogRecord K)

/-- A step of a thread. -/
inductive InsertAct (τ K : Type) where
  /-- `memtable_maybe_rotate_and_begin_insert` that finds room. -/
  | begin (t : τ)
  /-- The rotation of a full memtable in it; the next memtable is ready. -/
  | rotate (t : τ)
  /-- `memtable_insert`. -/
  | insert (t : τ) (x : K) (msg : Message) (env : Surroundings)
  /-- `log_write`, which may fail. -/
  | logWrite (t : τ) (success : Bool)
  /-- `memtable_end_insert`. -/
  | endInsert (t : τ)
  deriving DecidableEq, Repr

variable {τ : Type} [Fintype τ] [DecidableEq τ]

def InsertState.goto (s : InsertState τ K) (t : τ) (pc : InsertPc K) : InsertState τ K :=
  { s with thread := Function.update s.thread t pc }

def insertStep (s : InsertState τ K) (t : τ) (x : K) (msg : Message) :
    Option (InsertState τ K) :=
  (btreeInsert cfg env s.memtable x msg).map fun r =>
    match r.1 with
    | .error _ => { s.goto t .unlocking with memtable := r.2 }
    | .ok generation =>
        let record : LogRecord K := ⟨x, msg, generation, s.generation⟩
        { s.goto t (.logging record) with
          memtable := r.2
          applied := s.applied ++ [record] }

/-- One step.  A rotation has to wait for every thread that has the insert lock. -/
def insertNext (s : InsertState τ K) : InsertAct τ K → Option (InsertState τ K)
  | .begin t =>
      if s.thread t = .idle ∧ memtableIsFull cfg s.memtable = false then some (s.goto t .inserting)
      else none
  | .rotate t =>
      if (∀ other, s.thread other = .idle) ∧ memtableIsFull cfg s.memtable = true then
        some { s.goto t .idle with memtable := btreeCreate cfg, generation := s.generation + 1 }
      else none
  | .insert t x msg env =>
      if s.thread t = .inserting then insertStep cfg env s t x msg else none
  | .logWrite t success =>
      match s.thread t with
      | .logging record =>
          some { s.goto t .unlocking with log := if success then s.log ++ [record] else s.log }
      | _ => none
  | .endInsert t => if s.thread t = .unlocking then some (s.goto t .idle) else none

/-- `memtable_context_create`. -/
def newInserts : InsertState τ K := ⟨btreeCreate cfg, 0, fun _ => .idle, [], []⟩

def insertions : System (InsertState τ K) (InsertAct τ K) :=
  System.ofFun (fun s => s = newInserts cfg) (insertNext cfg)

/-! ## What the log is for -/

/-- **The order of the log**: of two records of a key, the one that was applied first has the smaller
generation. -/
def LogOrdered (s : InsertState τ K) : Prop :=
  s.applied.Pairwise fun a b => a.key = b.key → a.generation < b.generation

/-- The message of a key after the tuples of some records have been inserted in their order. -/
def rebuilt (x : K) (records : List (LogRecord K)) : Option Message :=
  (records.filter fun r => r.key = x).foldl
    (fun old r => old.elim (some r.msg) fun msg => cfg.merge x msg r.msg) none

/-- **Replaying the log** in the order of the generations leaves for every key what the logged
tuples had left. -/
def ReplayAgrees (s : InsertState τ K) : Prop :=
  ∀ replay : List (LogRecord K), replay.Perm s.log →
    (replay.Pairwise fun a b => a.generation ≤ b.generation) →
    ∀ x, rebuilt cfg x replay = rebuilt cfg x (s.applied.filter fun r => r ∈ s.log)

/-! ## When the order is kept -/

/-- The generation counter that an update of a leaf reads: a split has raised it. -/
def counterFor (hdr : Page K) (spec : LeafIncorporateSpec K) : Nat :=
  if hdr.canPerformLeafIncorporateSpec cfg.btree spec ∨
      hdr.totalSpaceRequired cfg.btree spec < splitThreshold cfg.btree then hdr.generation
  else hdr.generation + 1

/-- No earlier memtable has given the key a generation that the leaf of the key has still to
reach. -/
def PastEarlier (s : InsertState τ K) : InsertAct τ K → Prop
  | .insert _ x msg env =>
      ∀ spec, specFor cfg env s.memtable x msg = .ok spec →
        ∀ r ∈ s.applied, r.key = x → r.memtable < s.generation →
          r.generation < counterFor cfg (s.memtable.leafOf x) spec
  | _ => True

end LogOrder
end Core
end TreePass
