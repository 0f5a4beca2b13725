import Mathlib.Tactic.Common

/-!
# Writable buffers

A `writable_buffer` is a stretch of memory with a length up to which it is in use.  It may be null,
which counts as empty.  Resizing allocates only if the memory is too short, and what was in use is
kept.

* `WritableBuffer` carries the bound of the length as a field.
* `Memory` is the outcome of an allocation: the bytes of the new memory, or a failure.
* `writableBufferResize_spec` says what a resize does.
-/

namespace TreePass
namespace Util

/-- The values of a `uint64`. -/
def uint64Size : Nat := 18446744073709551616

/-- `WRITABLE_BUFFER_NULL_LENGTH`, which is `UINT64_MAX`. -/
def writableBufferNullLength : Nat := 18446744073709551615

/-- `writable_buffer`.  `cells` are the `buffer_capacity` bytes of its memory; a null buffer has no
length. -/
structure WritableBuffer where
  cells : List UInt8
  length : Option Nat
  canFree : Bool
  fits : ∀ n, length = some n → n ≤ cells.length

/-- The outcome of an allocation: what is in the new memory before it is written, if there is
any. -/
abbrev Memory := Option (Nat → UInt8)

/-- A `platform_status` other than `STATUS_OK`: any `int` but zero. -/
structure FailedStatus where
  r : BitVec 32
  failed : r ≠ 0

theorem enomem_ne_zero : (12 : BitVec 32) ≠ 0 := by decide

/-- `STATUS_NO_MEMORY`. -/
def FailedStatus.noMemory : FailedStatus := ⟨12, enomem_ne_zero⟩

/-- The `platform_status` of a call. -/
abbrev Status := Except FailedStatus Unit

namespace WritableBuffer

variable (wb : WritableBuffer)

/-- `writable_buffer_length`. -/
def used : Nat := wb.length.getD 0

/-- `writable_buffer_capacity`. -/
def capacity : Nat := wb.cells.length

def contents : List UInt8 := wb.cells.take wb.used

theorem used_le : wb.used ≤ wb.capacity := by
  unfold used capacity
  cases hlength : wb.length with
  | none => exact Nat.zero_le _
  | some n => exact wb.fits n hlength

theorem length_contents : wb.contents.length = wb.used := by
  unfold contents
  rw [List.length_take]
  exact Nat.min_eq_left wb.used_le

def setLength (n : Nat) (h : n ≤ wb.cells.length) : WritableBuffer :=
  { wb with
    length := some n
    fits := by
      intro m hm
      obtain rfl := Option.some.inj hm
      exact h }

def read (offset n : Nat) : Option (List UInt8) :=
  if offset + n ≤ wb.cells.length then some ((wb.cells.drop offset).take n) else none

def overwrite (cells : List UInt8) (offset : Nat) (bytes : List UInt8) : List UInt8 :=
  cells.take offset ++ bytes ++ cells.drop (offset + bytes.length)

theorem length_overwrite {cells : List UInt8} {offset : Nat} {bytes : List UInt8}
    (h : offset + bytes.length ≤ cells.length) :
    (overwrite cells offset bytes).length = cells.length := by
  unfold overwrite
  simp only [List.length_append, List.length_take, List.length_drop]
  omega

def write (offset : Nat) (bytes : List UInt8) : Option WritableBuffer :=
  if h : offset + bytes.length ≤ wb.cells.length then
    some
      { wb with
        cells := overwrite wb.cells offset bytes
        fits := by
          intro n hn
          rw [length_overwrite h]
          exact wb.fits n hn }
  else none

/-- The memory after an allocation of `size` bytes: what was kept, then what the new memory held. -/
def grown (kept : List UInt8) (fresh : Nat → UInt8) (size : Nat) : List UInt8 :=
  kept ++ (List.range (size - kept.length)).map fun i => fresh (kept.length + i)

theorem length_grown {kept : List UInt8} (fresh : Nat → UInt8) {size : Nat}
    (h : kept.length ≤ size) : (grown kept fresh size).length = size := by
  unfold grown
  rw [List.length_append, List.length_map, List.length_range]
  omega

/-- What is copied to a larger memory: everything by a reallocation, what is in use to the first
memory of its own. -/
def kept : List UInt8 := if wb.canFree then wb.cells else wb.contents

theorem length_kept_le : wb.kept.length ≤ wb.capacity := by
  unfold kept
  split
  · exact Nat.le_refl _
  · rw [length_contents]
    exact wb.used_le

theorem take_kept : wb.kept.take wb.used = wb.contents := by
  unfold kept
  split
  · rfl
  · exact List.take_of_length_le (Nat.le_of_eq wb.length_contents)

/-- The space that is asked for: at least twice what there is. -/
def askFor (minspace : Nat) : Nat :=
  if minspace < 2 * wb.capacity % uint64Size then 2 * wb.capacity % uint64Size else minspace

theorem le_askFor (minspace : Nat) : minspace ≤ wb.askFor minspace := by
  unfold askFor
  split
  · omega
  · exact Nat.le_refl _

end WritableBuffer

open WritableBuffer

/-- `writable_buffer_ensure_space`. -/
def writableBufferEnsureSpace (wb : WritableBuffer) (memory : Memory) (minspace : Nat) :
    Status × WritableBuffer :=
  if hspace : minspace ≤ wb.capacity then (.ok (), wb)
  else
    match memory with
    | none => (.error .noMemory, wb)
    | some fresh =>
        (.ok (),
          { cells := grown wb.kept fresh (wb.askFor minspace)
            length := wb.length
            canFree := true
            fits := by
              intro n hn
              have hle := wb.fits n hn
              have hkept := wb.length_kept_le
              have hask := wb.le_askFor minspace
              unfold capacity at hspace hkept
              rw [length_grown fresh (by omega)]
              omega })

/-- `writable_buffer_resize`.  There is no result if an assertion fails. -/
def writableBufferResize (wb : WritableBuffer) (memory : Memory) (newlength : Nat) :
    Option (Status × WritableBuffer) :=
  if newlength = writableBufferNullLength then none
  else
    let ensured := writableBufferEnsureSpace wb memory newlength
    match ensured.1 with
    | .error e => some (.error e, ensured.2)
    | .ok () =>
        -- The space is there after a call that succeeded.
        if h : newlength ≤ ensured.2.cells.length then
          some (.ok (), ensured.2.setLength newlength h)
        else none

theorem writableBufferResize_of_le (wb : WritableBuffer) (memory : Memory) {newlength : Nat}
    (h : newlength < writableBufferNullLength) (hspace : newlength ≤ wb.cells.length) :
    writableBufferResize wb memory newlength = some (.ok (), wb.setLength newlength hspace) := by
  have hensure : writableBufferEnsureSpace wb memory newlength = (.ok (), wb) := dif_pos hspace
  unfold writableBufferResize
  rw [if_neg (Nat.ne_of_lt h), hensure]
  dsimp only
  rw [dif_pos hspace]

def Allocates (wb : WritableBuffer) (memory : Memory) (newlength : Nat) : Prop :=
  newlength ≤ wb.capacity ∨ memory.isSome = true

theorem writableBufferResize_spec (wb : WritableBuffer) (memory : Memory) {newlength : Nat}
    (h : newlength < writableBufferNullLength) :
    (Allocates wb memory newlength → ∃ wb',
      writableBufferResize wb memory newlength = some (.ok (), wb') ∧
        wb'.length = some newlength ∧ wb'.cells.take wb.used = wb.contents) ∧
    (¬ Allocates wb memory newlength →
      writableBufferResize wb memory newlength = some (.error .noMemory, wb)) := by
  by_cases hspace : newlength ≤ wb.capacity
  · rw [writableBufferResize_of_le wb memory h hspace]
    constructor
    · intro _
      exact ⟨_, rfl, rfl, rfl⟩
    · intro hfails
      exact absurd (Or.inl hspace) hfails
  · unfold writableBufferResize
    rw [if_neg (Nat.ne_of_lt h)]
    cases memory with
    | none =>
        have hensure : writableBufferEnsureSpace wb none newlength = (.error .noMemory, wb) :=
          dif_neg hspace
        rw [hensure]
        constructor
        · rintro (hle | hsome)
          · exact absurd hle hspace
          · cases hsome
        · intro _
          rfl
    | some fresh =>
        have hkept := wb.length_kept_le
        have hask := wb.le_askFor newlength
        have hused := wb.used_le
        have hlength : (grown wb.kept fresh (wb.askFor newlength)).length =
            wb.askFor newlength := length_grown fresh (by omega)
        have htake : (grown wb.kept fresh (wb.askFor newlength)).take wb.used = wb.contents := by
          have hle : wb.used ≤ wb.kept.length := by
            rw [← wb.length_contents, ← wb.take_kept, List.length_take]
            exact Nat.min_le_right _ _
          unfold grown
          rw [List.take_append_of_le_length hle, wb.take_kept]
        unfold writableBufferEnsureSpace
        rw [dif_neg hspace]
        dsimp only
        rw [dif_pos (by rw [hlength]; exact hask)]
        constructor
        · intro _
          exact ⟨_, rfl, rfl, htake⟩
        · intro hfails
          exact absurd (Or.inr rfl) hfails

end Util
end TreePass
