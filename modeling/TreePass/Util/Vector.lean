import TreePass.Util.WritableBuffer

/-!
# Failable vector operations

A vector is a writable buffer with elements of one size.  Three of its operations can fail: by the
allocation of memory, or by the initialiser of an element, a call that may do anything and return
any status.

* `Holds` says which elements a vector has.
* `vectorEmplaceAppend`, `vectorEmplaceMap` and `vectorReplace` are the operations.
* `AppendOk`, `MapOk` and `ReplaceOk` are their contracts.
* `failable_vector_operations` says when they are met.
-/

namespace TreePass
namespace Util

open WritableBuffer

/-- The elements of a vector, as bytes. -/
structure Holds (eltSize : Nat) (v : WritableBuffer) (xs : List (List UInt8)) : Prop where
  bytes : v.contents = xs.flatten
  size : ∀ x ∈ xs, x.length = eltSize

/-- The initialiser of an element: it changes the state of the program and the memory of the
element, and returns a status. -/
structure Initialiser (S : Type) (eltSize : Nat) where
  run : S → List UInt8 → Status × S × List UInt8
  size : ∀ s cell, cell.length = eltSize → (run s cell).2.2.length = eltSize

variable {S : Type} {eltSize : Nat}

/-! ## The operations -/

/-- `vector_length`. -/
def vectorLength (eltSize : Nat) (v : WritableBuffer) : Nat := v.used / eltSize

/-- The call of an initialiser on element `i`, which may be behind the length. -/
def callAt (init : Initialiser S eltSize) (v : WritableBuffer) (i : Nat) (s : S) :
    Option (Status × WritableBuffer × S) :=
  (v.read (i * eltSize) eltSize).bind fun cell =>
    (v.write (i * eltSize) (init.run s cell).2.2).map fun v =>
      ((init.run s cell).1, v, (init.run s cell).2.1)

/-- `VECTOR_EMPLACE_APPEND`. -/
def vectorEmplaceAppend (init : Initialiser S eltSize) (v : WritableBuffer)
    (first second : Memory) (s : S) : Option (Status × WritableBuffer × S) :=
  let oldLength := vectorLength eltSize v
  let oldSize := oldLength * eltSize
  let newSize := (oldSize + eltSize) % uint64Size
  (writableBufferResize v first newSize).bind fun resized =>
    let called :=
      match resized.1 with
      | .ok () => callAt init resized.2 oldLength s
      | .error e => some (.error e, resized.2, s)
    called.bind fun called =>
      match called.1 with
      | .ok () => some called
      | .error _ =>
          -- The status of the rollback takes the place of the one that failed.
          (writableBufferResize called.2.1 second oldSize).bind fun rolledBack =>
            match rolledBack.1 with
            | .ok () => some (.ok (), rolledBack.2, called.2.2)
            | .error _ => none

/-- The loop of `VECTOR_EMPLACE_MAP` from element `idx` on: the status, the elements that are
initialised, the vector and the state. -/
def emplaceLoop (init : Nat → Initialiser S eltSize) :
    Nat → Nat → WritableBuffer → S → Option (Status × Nat × WritableBuffer × S)
  | 0, idx, v, s => some (.ok (), idx, v, s)
  | left + 1, idx, v, s =>
      (callAt (init idx) v idx s).bind fun called =>
        match called.1 with
        | .ok () => emplaceLoop init left (idx + 1) called.2.1 called.2.2
        | .error e => some (.error e, idx, called.2.1, called.2.2)

/-- `VECTOR_EMPLACE_MAP`, for a source of `len` elements. -/
def vectorEmplaceMap (init : Nat → Initialiser S eltSize) (dst : WritableBuffer) (len : Nat)
    (first second : Memory) (s : S) : Option (Status × WritableBuffer × S) :=
  let size := len * eltSize % uint64Size
  (writableBufferResize dst first size).bind fun resized =>
    match resized.1 with
    | .error e => some (.error e, resized.2, s)
    | .ok () =>
        (emplaceLoop init len 0 resized.2 s).bind fun done =>
          -- The status of this resize is not looked at.
          (writableBufferResize done.2.2.1 second (done.2.1 * eltSize)).map fun cut =>
            (done.1, cut.2, done.2.2.2)

/-- `vector_replace`. -/
def vectorReplace (eltSize : Nat) (dst : WritableBuffer) (dstoff dstlen : Nat)
    (src : WritableBuffer) (srcoff srclen : Nat) (first second : Memory) :
    Option (Status × WritableBuffer) :=
  let oldDstSize := dst.used
  let grown :=
    if dstlen < srclen then
      writableBufferResize dst first ((oldDstSize + (srclen - dstlen) * eltSize) % uint64Size)
    else some (.ok (), dst)
  grown.bind fun grown =>
    match grown.1 with
    | .error e => some (.error e, grown.2)
    | .ok () =>
        -- The tail is moved to its place, and the new elements come between.
        (grown.2.read ((dstoff + dstlen) * eltSize)
            (oldDstSize - (dstoff + dstlen) * eltSize)).bind fun tail =>
          (grown.2.write ((dstoff + srclen) * eltSize) tail).bind fun moved =>
            (src.read (srcoff * eltSize) (srclen * eltSize)).bind fun bytes =>
              (moved.write (dstoff * eltSize) bytes).bind fun dst =>
                if srclen < dstlen then
                  (writableBufferResize dst second
                      (oldDstSize - (dstlen - srclen) * eltSize)).bind fun cut =>
                    match cut.1 with
                    | .ok () => some (.ok (), cut.2)
                    | .error _ => none
                else some (.ok (), dst)

/-! ## The contracts -/

/-- Successful calls of the initialisers of elements `0` to `k - 1`, with the memory each of them
gets, and the elements they leave. -/
inductive Initialised (init : Nat → Initialiser S eltSize) (cell : Nat → List UInt8) :
    S → List (List UInt8) → S → Prop
  | none (s : S) : Initialised init cell s [] s
  | one {s s' : S} {done : List (List UInt8)} :
      Initialised init cell s done s' →
        ((init done.length).run s' (cell done.length)).1 = .ok () →
        Initialised init cell s (done ++ [((init done.length).run s' (cell done.length)).2.2])
          ((init done.length).run s' (cell done.length)).2.1

/-- The memory of element `i`. -/
def cellAt (eltSize : Nat) (v : WritableBuffer) (i : Nat) : List UInt8 :=
  (v.cells.drop (i * eltSize)).take eltSize

/-- The contract of an append to a vector with the elements `xs`: without memory it fails and
leaves the vector; with memory it returns the status of the initialiser, and the vector has the
element more if and only if that succeeded. -/
def AppendOk (init : Initialiser S eltSize) (v : WritableBuffer) (xs : List (List UInt8))
    (first second : Memory) (s : S) : Prop :=
  ∃ rc v' s', vectorEmplaceAppend init v first second s = some (rc, v', s') ∧
    (writableBufferResize v first ((xs.length + 1) * eltSize) = some (.error .noMemory, v) →
      rc = .error .noMemory ∧ Holds eltSize v' xs ∧ s' = s) ∧
    ∀ v₁, writableBufferResize v first ((xs.length + 1) * eltSize) = some (.ok (), v₁) →
      rc = (init.run s (cellAt eltSize v₁ xs.length)).1 ∧
      s' = (init.run s (cellAt eltSize v₁ xs.length)).2.1 ∧
      Holds eltSize v'
        (match (init.run s (cellAt eltSize v₁ xs.length)).1 with
        | .ok () => xs ++ [(init.run s (cellAt eltSize v₁ xs.length)).2.2]
        | .error _ => xs)

/-- The contract of a map from `len` elements: the vector has what was initialised before the first
failure, and the status is that of this failure. -/
def MapOk (init : Nat → Initialiser S eltSize) (dst : WritableBuffer) (len : Nat)
    (first second : Memory) (s : S) : Prop :=
  ∃ rc dst' s', vectorEmplaceMap init dst len first second s = some (rc, dst', s') ∧
    (writableBufferResize dst first (len * eltSize) = some (.error .noMemory, dst) →
      rc = .error .noMemory ∧ Holds eltSize dst' [] ∧ s' = s) ∧
    ∀ dst₁, writableBufferResize dst first (len * eltSize) = some (.ok (), dst₁) →
      ∃ done s₁, Initialised init (cellAt eltSize dst₁) s done s₁ ∧ Holds eltSize dst' done ∧
        (done.length = len ∧ rc = .ok () ∧ s' = s₁ ∨
          done.length < len ∧
            ∃ e, ((init done.length).run s₁ (cellAt eltSize dst₁ done.length)).1 = .error e ∧
              rc = .error e ∧
              s' = ((init done.length).run s₁ (cellAt eltSize dst₁ done.length)).2.1)

/-- The contract of a replacement: the elements are spliced, or there was no memory and nothing has
changed. -/
def ReplaceOk (eltSize : Nat) (dst : WritableBuffer) (xs : List (List UInt8)) (dstoff dstlen : Nat)
    (src : WritableBuffer) (ys : List (List UInt8)) (srcoff srclen : Nat)
    (first second : Memory) : Prop :=
  ∃ rc dst', vectorReplace eltSize dst dstoff dstlen src srcoff srclen first second =
      some (rc, dst') ∧
    (rc = .ok () ∧ Holds eltSize dst'
        (xs.take dstoff ++ (ys.drop srcoff).take srclen ++ xs.drop (dstoff + dstlen)) ∨
      rc = .error .noMemory ∧ dst' = dst ∧ dstlen < srclen ∧
        writableBufferResize dst first ((xs.length + (srclen - dstlen)) * eltSize) =
          some (.error .noMemory, dst))

/-! ## Elements in memory -/

theorem mod_uint64Size {n : Nat} (h : n < writableBufferNullLength) : n % uint64Size = n := by
  apply Nat.mod_eq_of_lt
  unfold writableBufferNullLength at h
  unfold uint64Size
  omega

theorem length_flatten_of_size {xs : List (List UInt8)} (h : ∀ x ∈ xs, x.length = eltSize) :
    xs.flatten.length = xs.length * eltSize := by
  induction xs with
  | nil => simp
  | cons x xs ih =>
      rw [List.flatten_cons, List.length_append, h x List.mem_cons_self,
        ih fun y hy => h y (List.mem_cons_of_mem x hy), List.length_cons, Nat.succ_mul]
      omega

theorem Holds.used {v : WritableBuffer} {xs : List (List UInt8)} (h : Holds eltSize v xs) :
    v.used = xs.length * eltSize := by
  rw [← v.length_contents, h.bytes, length_flatten_of_size h.size]

theorem Holds.vectorLength_eq {v : WritableBuffer} {xs : List (List UInt8)}
    (h : Holds eltSize v xs) (hsize : 0 < eltSize) : vectorLength eltSize v = xs.length := by
  unfold vectorLength
  rw [h.used, Nat.mul_div_cancel _ hsize]

theorem holds_setLength {v : WritableBuffer} {xs : List (List UInt8)}
    (hsize : ∀ x ∈ xs, x.length = eltSize)
    (hbytes : v.cells.take (xs.length * eltSize) = xs.flatten)
    (hle : xs.length * eltSize ≤ v.cells.length) :
    Holds eltSize (v.setLength (xs.length * eltSize) hle) xs := by
  refine ⟨?_, hsize⟩
  unfold contents
  exact hbytes

theorem take_overwrite {cells : List UInt8} {offset : Nat} {bytes : List UInt8}
    (h : offset + bytes.length ≤ cells.length) :
    (overwrite cells offset bytes).take (offset + bytes.length) = cells.take offset ++ bytes := by
  unfold overwrite
  have hlen : (cells.take offset ++ bytes).length = offset + bytes.length := by
    rw [List.length_append, List.length_take]
    omega
  exact List.take_left' hlen

theorem drop_overwrite {cells : List UInt8} {offset : Nat} {bytes : List UInt8}
    (h : offset + bytes.length ≤ cells.length) :
    (overwrite cells offset bytes).drop (offset + bytes.length) =
      cells.drop (offset + bytes.length) := by
  unfold overwrite
  have hlen : (cells.take offset ++ bytes).length = offset + bytes.length := by
    rw [List.length_append, List.length_take]
    omega
  exact List.drop_left' hlen

theorem callAt_spec (init : Initialiser S eltSize) (v : WritableBuffer) {i : Nat} (s : S)
    (hi : (i + 1) * eltSize ≤ v.cells.length) :
    ∃ v', callAt init v i s = some ((init.run s (cellAt eltSize v i)).1, v',
        (init.run s (cellAt eltSize v i)).2.1) ∧
      v'.length = v.length ∧
      v'.cells = overwrite v.cells (i * eltSize) (init.run s (cellAt eltSize v i)).2.2 ∧
      (init.run s (cellAt eltSize v i)).2.2.length = eltSize := by
  rw [Nat.succ_mul] at hi
  have hcell : (cellAt eltSize v i).length = eltSize := by
    unfold cellAt
    rw [List.length_take, List.length_drop]
    omega
  have hsize := init.size s _ hcell
  have hread : v.read (i * eltSize) eltSize = some (cellAt eltSize v i) := if_pos hi
  have hfits : i * eltSize + (init.run s (cellAt eltSize v i)).2.2.length ≤ v.cells.length := by
    rw [hsize]
    exact hi
  unfold callAt write
  rw [hread, Option.bind_some, dif_pos hfits]
  exact ⟨_, rfl, rfl, rfl, hsize⟩

/-! ## Appending -/

/-- **When an append keeps its contract**: the memory is there and the initialiser succeeds. -/
theorem appendOk_iff (init : Initialiser S eltSize) {v : WritableBuffer} {xs : List (List UInt8)}
    (first second : Memory) (s : S) (hsize : 0 < eltSize) (hholds : Holds eltSize v xs)
    (hroom : (xs.length + 1) * eltSize < writableBufferNullLength) :
    AppendOk init v xs first second s ↔
      ∃ v₁, writableBufferResize v first ((xs.length + 1) * eltSize) = some (.ok (), v₁) ∧
        (init.run s (cellAt eltSize v₁ xs.length)).1 = .ok () := by
  have hnew : (vectorLength eltSize v * eltSize + eltSize) % uint64Size =
      (xs.length + 1) * eltSize := by
    rw [hholds.vectorLength_eq hsize, ← Nat.succ_mul]
    exact mod_uint64Size hroom
  have hold : xs.length * eltSize < writableBufferNullLength := by
    rw [Nat.succ_mul] at hroom
    omega
  obtain ⟨hgrow, hfail⟩ := writableBufferResize_spec v first hroom
  unfold AppendOk vectorEmplaceAppend
  dsimp only
  rw [hnew, hholds.vectorLength_eq hsize]
  by_cases halloc : Allocates v first ((xs.length + 1) * eltSize)
  · obtain ⟨v₁, hresize, hlength, hkept⟩ := hgrow halloc
    have hcells := v₁.fits _ hlength
    obtain ⟨v₂, hcall, hsame, hoverwrite, hbytes⟩ := callAt_spec init v₁ s hcells
    have hfront : v₁.cells.take (xs.length * eltSize) = xs.flatten := by
      rw [← hholds.used, hkept, hholds.bytes]
    rw [hresize, Option.bind_some]
    dsimp only
    rw [hcall, Option.bind_some]
    dsimp only
    generalize hrun : init.run s (cellAt eltSize v₁ xs.length) = out at *
    obtain ⟨rc, s₁, bytes⟩ := out
    dsimp only at hoverwrite hbytes
    rw [Nat.succ_mul] at hcells hlength
    have hfits : xs.length * eltSize + bytes.length ≤ v₁.cells.length := by
      rw [hbytes]
      exact hcells
    cases rc with
    | ok _ =>
        have hcontents : Holds eltSize v₂ (xs ++ [bytes]) := by
          constructor
          · have hused : v₂.used = xs.length * eltSize + bytes.length := by
              unfold used
              rw [hsame, hlength, hbytes]
              rfl
            unfold contents
            rw [hused, hoverwrite, take_overwrite hfits, hfront, List.flatten_append]
            simp
          · intro x hx
            rcases List.mem_append.mp hx with hmem | hmem
            · exact hholds.size x hmem
            · rw [List.mem_singleton.mp hmem, hbytes]
        constructor
        · intro _
          exact ⟨v₁, rfl, by rw [hrun]⟩
        · intro _
          refine ⟨_, _, _, rfl, ?_, ?_⟩
          · intro hfailed
            cases hfailed
          intro v₁' hv₁
          obtain rfl : v₁ = v₁' := congrArg Prod.snd (Option.some.inj hv₁)
          rw [hrun]
          exact ⟨rfl, rfl, hcontents⟩
    | error e =>
        -- The rollback succeeds, and its status is returned.
        have hback := writableBufferResize_of_le v₂ second hold (by
          rw [hoverwrite, length_overwrite hfits]
          omega)
        constructor
        · rintro ⟨rc, v', s', hresult, -, hcontract⟩
          rw [hback] at hresult
          have hrc : Except.ok () = rc := congrArg Prod.fst (Option.some.inj hresult)
          have hstatus := (hcontract v₁ rfl).1
          rw [hrun, ← hrc] at hstatus
          cases hstatus
        · rintro ⟨v₁', hv₁, hok⟩
          obtain rfl : v₁ = v₁' := congrArg Prod.snd (Option.some.inj hv₁)
          rw [hrun] at hok
          cases hok
  · -- Without memory the rollback succeeds as well.
    have hback := writableBufferResize_of_le v second hold (by
      rw [← hholds.used]
      exact v.used_le)
    rw [hfail halloc, Option.bind_some]
    dsimp only
    rw [Option.bind_some]
    dsimp only
    rw [hback]
    constructor
    · rintro ⟨rc, v', s', hresult, hcontract, -⟩
      have hrc : Except.ok () = rc := congrArg Prod.fst (Option.some.inj hresult)
      have hstatus := (hcontract rfl).1
      rw [← hrc] at hstatus
      cases hstatus
    · rintro ⟨v₁, hv₁, -⟩
      cases hv₁

/-! ## Mapping -/

theorem emplaceLoop_spec (init : Nat → Initialiser S eltSize) (dst : WritableBuffer) (len : Nat)
    (s₀ : S) (hroom : len * eltSize ≤ dst.cells.length) (left : Nat) :
    ∀ (done : List (List UInt8)) (v : WritableBuffer) (s : S), done.length + left = len →
      Initialised init (cellAt eltSize dst) s₀ done s → (∀ x ∈ done, x.length = eltSize) →
      v.cells.length = dst.cells.length →
      v.cells.take (done.length * eltSize) = done.flatten →
      v.cells.drop (done.length * eltSize) = dst.cells.drop (done.length * eltSize) →
      ∃ rc k v' s', emplaceLoop init left done.length v s = some (rc, k, v', s') ∧
        ∃ done' s₁, Initialised init (cellAt eltSize dst) s₀ done' s₁ ∧ done'.length = k ∧
          (∀ x ∈ done', x.length = eltSize) ∧ v'.cells.length = dst.cells.length ∧
          v'.cells.take (k * eltSize) = done'.flatten ∧
          (k = len ∧ rc = .ok () ∧ s' = s₁ ∨
            k < len ∧ ∃ e, ((init k).run s₁ (cellAt eltSize dst k)).1 = .error e ∧
              rc = .error e ∧ s' = ((init k).run s₁ (cellAt eltSize dst k)).2.1) := by
  induction left with
  | zero =>
      intro done v s hlen hdone hsize hcells hbytes _
      exact ⟨_, _, _, _, rfl, done, s, hdone, rfl, hsize, hcells, hbytes,
        Or.inl ⟨hlen, rfl, rfl⟩⟩
  | succ left ih =>
      intro done v s hlen hdone hsize hcells hbytes htail
      have hfits : (done.length + 1) * eltSize ≤ v.cells.length := by
        rw [hcells]
        exact Nat.le_trans (Nat.mul_le_mul_right _ (by omega)) hroom
      -- The calls before have not touched the memory of this element.
      have hcell : cellAt eltSize v done.length = cellAt eltSize dst done.length := by
        unfold cellAt
        rw [htail]
      obtain ⟨v₁, hcall, -, hoverwrite, hlength⟩ := callAt_spec (init done.length) v s hfits
      unfold emplaceLoop
      rw [hcall, Option.bind_some]
      dsimp only
      rw [hcell] at hoverwrite hlength ⊢
      rw [Nat.succ_mul] at hfits
      have hover : done.length * eltSize +
          ((init done.length).run s (cellAt eltSize dst done.length)).2.2.length ≤
            v.cells.length := by
        rw [hlength]
        exact hfits
      have hcells₁ : v₁.cells.length = dst.cells.length := by
        rw [hoverwrite, length_overwrite hover, hcells]
      cases hrc : ((init done.length).run s (cellAt eltSize dst done.length)).1 with
      | ok _ =>
          have hnext := Initialised.one hdone hrc
          have hend : (done ++
              [((init done.length).run s (cellAt eltSize dst done.length)).2.2]).length *
                eltSize = done.length * eltSize +
                  ((init done.length).run s (cellAt eltSize dst done.length)).2.2.length := by
            rw [List.length_append, List.length_singleton, Nat.succ_mul, hlength]
          have hrec := ih _ v₁ _ (by rw [List.length_append, List.length_singleton]; omega) hnext
            (by
              intro x hx
              rcases List.mem_append.mp hx with hmem | hmem
              · exact hsize x hmem
              · rw [List.mem_singleton.mp hmem, hlength])
            hcells₁
            (by
              rw [hend, hoverwrite, take_overwrite hover, hbytes, List.flatten_append]
              simp)
            (by
              rw [hend, hoverwrite, drop_overwrite hover, ← List.drop_drop, htail,
                List.drop_drop])
          rw [List.length_append, List.length_singleton] at hrec
          exact hrec
      | error e =>
          refine ⟨_, _, _, _, rfl, done, s, hdone, rfl, hsize, hcells₁, ?_, ?_⟩
          · have htake := congrArg (List.take (done.length * eltSize)) (take_overwrite hover)
            rw [List.take_take, Nat.min_eq_left (Nat.le_add_right _ _)] at htake
            rw [hoverwrite, htake, List.take_left' (by rw [List.length_take]; omega), hbytes]
          · exact Or.inr ⟨by omega, e, hrc, rfl, rfl⟩

/-- **When a map keeps its contract**: unless the memory is missing and there are old elements,
which stay then. -/
theorem mapOk_iff (init : Nat → Initialiser S eltSize) {dst : WritableBuffer}
    {xs : List (List UInt8)} (len : Nat) (first second : Memory) (s : S) (hsize : 0 < eltSize)
    (hholds : Holds eltSize dst xs) (hroom : len * eltSize < writableBufferNullLength) :
    MapOk init dst len first second s ↔ Allocates dst first (len * eltSize) ∨ xs = [] := by
  obtain ⟨hgrow, hfail⟩ := writableBufferResize_spec dst first hroom
  unfold MapOk vectorEmplaceMap
  dsimp only
  rw [mod_uint64Size hroom]
  by_cases halloc : Allocates dst first (len * eltSize)
  · obtain ⟨dst₁, hresize, hlength, -⟩ := hgrow halloc
    have hcells := dst₁.fits _ hlength
    obtain ⟨rc, k, v, s', hloop, done, s₁, hdone, hk, hsizes, hlen, hbytes, hend⟩ :=
      emplaceLoop_spec init dst₁ len s hcells len [] dst₁ s (by simp) (.none s) (by simp) rfl
        (by simp) (by simp)
    rw [List.length_nil] at hloop
    have hkle : k * eltSize ≤ len * eltSize := by
      apply Nat.mul_le_mul_right
      rcases hend with hend | hend
      · exact Nat.le_of_eq hend.1
      · exact Nat.le_of_lt hend.1
    have hcut := @writableBufferResize_of_le v second (k * eltSize) (by omega) (by omega)
    rw [hresize, Option.bind_some]
    dsimp only
    rw [hloop, Option.bind_some]
    dsimp only
    rw [hcut, Option.map_some]
    constructor
    · intro _
      exact Or.inl halloc
    · intro _
      refine ⟨_, _, _, rfl, ?_, ?_⟩
      · intro hfailed
        cases hfailed
      · intro dst₂ hdst₂
        obtain rfl : dst₁ = dst₂ := congrArg Prod.snd (Option.some.inj hdst₂)
        subst hk
        exact ⟨done, s₁, hdone, holds_setLength hsizes hbytes (by omega), hend⟩
  · rw [hfail halloc, Option.bind_some]
    dsimp only
    constructor
    · rintro ⟨rc, dst', s', hresult, hcontract, -⟩
      obtain ⟨-, hempty, -⟩ := hcontract rfl
      have hdst : dst = dst' :=
        congrArg (fun r : Status × WritableBuffer × S => r.2.1) (Option.some.inj hresult)
      rw [← hdst] at hempty
      have hused := hempty.used
      rw [hholds.used, List.length_nil, Nat.zero_mul, Nat.mul_eq_zero] at hused
      rcases hused with hnil | hzero
      · exact Or.inr (List.length_eq_zero_iff.mp hnil)
      · omega
    · rintro (hmemory | rfl)
      · exact absurd hmemory halloc
      · refine ⟨_, _, _, rfl, fun _ => ⟨rfl, hholds, rfl⟩, ?_⟩
        intro dst₁ hdst₁
        cases hdst₁

/-! ## Replacing -/

theorem length_flatten_take {xs : List (List UInt8)} (h : ∀ x ∈ xs, x.length = eltSize)
    {n : Nat} (hn : n ≤ xs.length) : (xs.take n).flatten.length = n * eltSize := by
  rw [length_flatten_of_size fun x hx => h x (List.mem_of_mem_take hx), List.length_take,
    Nat.min_eq_left hn]

theorem flatten_take_append_drop (xs : List (List UInt8)) (n : Nat) :
    (xs.take n).flatten ++ (xs.drop n).flatten = xs.flatten := by
  rw [← List.flatten_append, List.take_append_drop]

theorem flatten_take_of_size {xs : List (List UInt8)} (h : ∀ x ∈ xs, x.length = eltSize)
    {n : Nat} (hn : n ≤ xs.length) : (xs.take n).flatten = xs.flatten.take (n * eltSize) := by
  rw [← flatten_take_append_drop xs n]
  exact (List.take_left' (length_flatten_take h hn)).symm

theorem flatten_drop_of_size {xs : List (List UInt8)} (h : ∀ x ∈ xs, x.length = eltSize)
    {n : Nat} (hn : n ≤ xs.length) : (xs.drop n).flatten = xs.flatten.drop (n * eltSize) := by
  rw [← flatten_take_append_drop xs n]
  exact (List.drop_left' (length_flatten_take h hn)).symm

theorem Holds.read {v : WritableBuffer} {xs : List (List UInt8)} (h : Holds eltSize v xs)
    {off n : Nat} (hn : off + n ≤ xs.length) :
    v.read (off * eltSize) (n * eltSize) = some ((xs.drop off).take n).flatten := by
  have hused := v.used_le
  rw [h.used] at hused
  have hle : off * eltSize + n * eltSize ≤ xs.length * eltSize := by
    rw [← Nat.add_mul]
    exact Nat.mul_le_mul_right _ hn
  have hbytes := h.bytes
  unfold contents at hbytes
  rw [h.used] at hbytes
  have hinside : off * eltSize + n * eltSize ≤ v.cells.length := Nat.le_trans hle hused
  unfold WritableBuffer.read
  rw [if_pos hinside, flatten_take_of_size (fun x hx => h.size x (List.mem_of_mem_drop hx))
      (by rw [List.length_drop]; omega),
    flatten_drop_of_size h.size (by omega), ← hbytes, List.drop_take, List.take_take,
    Nat.min_eq_left (by omega)]

theorem write_spec {v : WritableBuffer} {offset : Nat} {bytes : List UInt8}
    (h : offset + bytes.length ≤ v.cells.length) :
    ∃ v', v.write offset bytes = some v' ∧ v'.length = v.length ∧
      v'.cells = overwrite v.cells offset bytes :=
  ⟨_, dif_pos h, rfl, rfl⟩

theorem take_overwrite_overwrite {cells bytes tail : List UInt8} {offset : Nat}
    (h : offset + bytes.length + tail.length ≤ cells.length) :
    (overwrite (overwrite cells (offset + bytes.length) tail) offset bytes).take
        (offset + bytes.length + tail.length) = cells.take offset ++ bytes ++ tail := by
  have hfront : (overwrite cells (offset + bytes.length) tail).take offset =
      cells.take offset := by
    have htake := congrArg (List.take offset) (take_overwrite h)
    rw [List.take_take, Nat.min_eq_left (by omega)] at htake
    rw [htake, List.take_append_of_le_length (by rw [List.length_take]; omega), List.take_take,
      Nat.min_eq_left (by omega)]
  have hback : (overwrite cells (offset + bytes.length) tail).drop (offset + bytes.length) =
      tail ++ cells.drop (offset + bytes.length + tail.length) := by
    unfold overwrite
    rw [List.append_assoc]
    exact List.drop_left' (by rw [List.length_take]; omega)
  have hunfold : overwrite (overwrite cells (offset + bytes.length) tail) offset bytes =
      cells.take offset ++ bytes ++ tail ++
        cells.drop (offset + bytes.length + tail.length) := by
    rw [overwrite, hfront, hback, ← List.append_assoc]
  rw [hunfold]
  apply List.take_left'
  rw [List.length_append, List.length_append, List.length_take]
  omega

theorem moves_spec {dst dst₁ : WritableBuffer} {before middle after old : List UInt8}
    (hold : dst₁.cells.take dst.used = before ++ old ++ after)
    (hused : dst.used = before.length + old.length + after.length)
    (hfits : dst.used ≤ dst₁.cells.length)
    (hroom : before.length + middle.length + after.length ≤ dst₁.cells.length) :
    dst₁.read (before.length + old.length) after.length = some after ∧
    ∃ moved, dst₁.write (before.length + middle.length) after = some moved ∧
      ∃ v, moved.write before.length middle = some v ∧ v.length = dst₁.length ∧
        v.cells.length = dst₁.cells.length ∧
        v.cells.take (before.length + middle.length + after.length) =
          before ++ middle ++ after := by
  have hfront : dst₁.cells.take before.length = before := by
    have htake := congrArg (List.take before.length) hold
    rw [List.take_take, Nat.min_eq_left (by omega), List.append_assoc, List.take_left] at htake
    exact htake
  constructor
  · unfold WritableBuffer.read
    rw [if_pos (by omega)]
    have hdrop := congrArg (List.drop (before.length + old.length)) hold
    have hcount : dst.used - (before.length + old.length) = after.length := by omega
    rw [List.drop_take, List.drop_left' (by rw [List.length_append]), hcount] at hdrop
    rw [hdrop]
  · obtain ⟨moved, hmoved, hlength, hcells⟩ :=
      @write_spec dst₁ (before.length + middle.length) after hroom
    have hsame : moved.cells.length = dst₁.cells.length := by
      rw [hcells, length_overwrite hroom]
    obtain ⟨v, hv, hlength', hcells'⟩ :=
      @write_spec moved before.length middle (by rw [hsame]; omega)
    refine ⟨moved, hmoved, v, hv, hlength'.trans hlength, ?_, ?_⟩
    · rw [hcells', length_overwrite (by rw [hsame]; omega), hsame]
    · rw [hcells', hcells, take_overwrite_overwrite hroom, hfront]

theorem replaceOk {dst src : WritableBuffer} {xs ys : List (List UInt8)}
    {dstoff dstlen srcoff srclen : Nat} (first second : Memory)
    (hdst : Holds eltSize dst xs) (hsrc : Holds eltSize src ys)
    (hdstoff : dstoff + dstlen ≤ xs.length) (hsrcoff : srcoff + srclen ≤ ys.length)
    (hroom : (xs.length + (srclen - dstlen)) * eltSize < writableBufferNullLength) :
    ReplaceOk eltSize dst xs dstoff dstlen src ys srcoff srclen first second := by
  have hsrcread := hsrc.read hsrcoff
  -- The parts of the destination, and what comes between them.
  have hbefore : (xs.take dstoff).flatten.length = dstoff * eltSize :=
    length_flatten_take hdst.size (by omega)
  have hmiddle : ((ys.drop srcoff).take srclen).flatten.length = srclen * eltSize :=
    length_flatten_take (fun x hx => hsrc.size x (List.mem_of_mem_drop hx))
      (by rw [List.length_drop]; omega)
  have hold : ((xs.drop dstoff).take dstlen).flatten.length = dstlen * eltSize :=
    length_flatten_take (fun x hx => hdst.size x (List.mem_of_mem_drop hx))
      (by rw [List.length_drop]; omega)
  have hsplit : xs.flatten = (xs.take dstoff).flatten ++ ((xs.drop dstoff).take dstlen).flatten ++
      (xs.drop (dstoff + dstlen)).flatten := by
    rw [← List.flatten_append, ← List.flatten_append, List.append_assoc, ← List.drop_drop,
      List.take_append_drop, List.take_append_drop]
  have hused : dst.used = dstoff * eltSize + dstlen * eltSize +
      (xs.drop (dstoff + dstlen)).flatten.length := by
    rw [← dst.length_contents, hdst.bytes, hsplit, List.length_append, List.length_append,
      hbefore, hold]
  have hnew : ∀ x ∈ xs.take dstoff ++ (ys.drop srcoff).take srclen ++ xs.drop (dstoff + dstlen),
      x.length = eltSize := by
    intro x hx
    rcases List.mem_append.mp hx with hx | hx
    · rcases List.mem_append.mp hx with hx | hx
      · exact hdst.size x (List.mem_of_mem_take hx)
      · exact hsrc.size x (List.mem_of_mem_drop (List.mem_of_mem_take hx))
    · exact hdst.size x (List.mem_of_mem_drop hx)
  have hbytes : dst.contents = (xs.take dstoff).flatten ++
      ((xs.drop dstoff).take dstlen).flatten ++ (xs.drop (dstoff + dstlen)).flatten := by
    rw [hdst.bytes, hsplit]
  have hcapacity := dst.used_le
  unfold capacity at hcapacity
  have hafter : dst.used - (dstoff + dstlen) * eltSize =
      (xs.drop (dstoff + dstlen)).flatten.length := by
    rw [Nat.add_mul]
    omega
  -- The moves, on any memory that has the old elements and room for the new ones.
  generalize hspliced : xs.take dstoff ++ (ys.drop srcoff).take srclen ++
    xs.drop (dstoff + dstlen) = new at hnew ⊢
  have hnewlength : new.length * eltSize = dstoff * eltSize + srclen * eltSize +
      (xs.drop (dstoff + dstlen)).flatten.length := by
    rw [← length_flatten_of_size hnew, ← hspliced, List.flatten_append, List.flatten_append,
      List.length_append, List.length_append, hbefore, hmiddle]
  have hmoves : ∀ dst₁ : WritableBuffer, dst₁.cells.take dst.used = dst.contents →
      dst.used ≤ dst₁.cells.length → new.length * eltSize ≤ dst₁.cells.length →
      dst₁.read (dstoff * eltSize + dstlen * eltSize)
          (xs.drop (dstoff + dstlen)).flatten.length =
        some (xs.drop (dstoff + dstlen)).flatten ∧
      ∃ moved, dst₁.write (dstoff * eltSize + srclen * eltSize)
          (xs.drop (dstoff + dstlen)).flatten = some moved ∧
        ∃ v, moved.write (dstoff * eltSize) ((ys.drop srcoff).take srclen).flatten = some v ∧
          v.length = dst₁.length ∧ v.cells.length = dst₁.cells.length ∧
          v.cells.take (new.length * eltSize) = new.flatten := by
    intro dst₁ hkept hfits hspace
    have hmoves := @moves_spec dst dst₁ (xs.take dstoff).flatten
      ((ys.drop srcoff).take srclen).flatten (xs.drop (dstoff + dstlen)).flatten
      ((xs.drop dstoff).take dstlen).flatten (by rw [hkept, hbytes])
      (by rw [hbefore, hold]; exact hused) hfits
      (by rw [hbefore, hmiddle, ← hnewlength]; exact hspace)
    rw [hbefore, hmiddle, hold, ← hnewlength] at hmoves
    rw [← hspliced] at hmoves ⊢
    rw [List.flatten_append, List.flatten_append]
    exact hmoves
  unfold ReplaceOk vectorReplace
  dsimp only
  rw [hspliced, hafter, Nat.add_mul, Nat.add_mul, hsrcread]
  have hsize : (xs.length + (srclen - dstlen)) * eltSize =
      dst.used + (srclen - dstlen) * eltSize := by
    rw [Nat.add_mul, hdst.used]
  rw [hsize] at hroom
  by_cases hgrows : dstlen < srclen
  · -- The new elements are more, and the memory grows first.
    have hdiff : (srclen - dstlen) * eltSize + dstlen * eltSize = srclen * eltSize := by
      rw [← Nat.add_mul]
      congr 1
      omega
    rw [if_pos hgrows, hsize, mod_uint64Size hroom]
    obtain ⟨hgrow, hfail⟩ := writableBufferResize_spec dst first hroom
    by_cases halloc : Allocates dst first (dst.used + (srclen - dstlen) * eltSize)
    · obtain ⟨dst₁, hresize, hlength, hkept⟩ := hgrow halloc
      have hcells := dst₁.fits _ hlength
      obtain ⟨hread, moved, hmoved, v, hv, hsame, -, htake⟩ :=
        hmoves dst₁ hkept (by omega) (by omega)
      rw [hresize, Option.bind_some]
      dsimp only
      rw [hread, Option.bind_some, hmoved, Option.bind_some, Option.bind_some, hv,
        Option.bind_some, if_neg (by omega)]
      refine ⟨_, _, rfl, Or.inl ⟨rfl, ?_, hnew⟩⟩
      have hvused : v.used = new.length * eltSize := by
        unfold used
        rw [hsame, hlength]
        show dst.used + (srclen - dstlen) * eltSize = _
        omega
      unfold contents
      rw [hvused]
      exact htake
    · rw [hfail halloc, Option.bind_some]
      exact ⟨_, _, rfl, Or.inr ⟨rfl, rfl, hgrows, rfl⟩⟩
  · -- There is room for the new elements, and the length shrinks afterwards.
    have hdiff : (dstlen - srclen) * eltSize + srclen * eltSize = dstlen * eltSize := by
      rw [← Nat.add_mul]
      congr 1
      omega
    obtain ⟨hread, moved, hmoved, v, hv, hsame, hvcells, htake⟩ :=
      hmoves dst rfl hcapacity (by omega)
    rw [if_neg hgrows, Option.bind_some]
    dsimp only
    rw [hread, Option.bind_some, hmoved, Option.bind_some, Option.bind_some, hv,
      Option.bind_some]
    by_cases hshrinks : srclen < dstlen
    · have hcut : dst.used - (dstlen - srclen) * eltSize = new.length * eltSize := by omega
      rw [if_pos hshrinks, hcut, @writableBufferResize_of_le v second _ (by omega) (by omega),
        Option.bind_some]
      exact ⟨_, _, rfl, Or.inl ⟨rfl, holds_setLength hnew htake (by omega)⟩⟩
    · obtain rfl : srclen = dstlen := by omega
      rw [if_neg hshrinks]
      refine ⟨_, _, rfl, Or.inl ⟨rfl, ?_, hnew⟩⟩
      have hvused : v.used = new.length * eltSize := by
        unfold used
        rw [hsame]
        show dst.used = _
        omega
      unfold contents
      rw [hvused]
      exact htake

/-! ## All three -/

/-- **The failable vector operations.**  An append keeps its contract exactly if nothing fails: the
rollback puts its own status over the one that is returned.  A map keeps its contract unless there
is no memory and the destination has elements, and a replacement always does. -/
theorem failable_vector_operations (init : Initialiser S eltSize)
    (inits : Nat → Initialiser S eltSize) {dst src : WritableBuffer} {xs ys : List (List UInt8)}
    (len dstoff dstlen srcoff srclen : Nat) (first second : Memory) (s : S)
    (hsize : 0 < eltSize) (hdst : Holds eltSize dst xs) (hsrc : Holds eltSize src ys)
    (hdstoff : dstoff + dstlen ≤ xs.length) (hsrcoff : srcoff + srclen ≤ ys.length)
    (happend : (xs.length + 1) * eltSize < writableBufferNullLength)
    (hmap : len * eltSize < writableBufferNullLength)
    (hreplace : (xs.length + (srclen - dstlen)) * eltSize < writableBufferNullLength) :
    (AppendOk init dst xs first second s ↔
      ∃ grown, writableBufferResize dst first ((xs.length + 1) * eltSize) =
          some (.ok (), grown) ∧
        (init.run s (cellAt eltSize grown xs.length)).1 = .ok ()) ∧
    (MapOk inits dst len first second s ↔ Allocates dst first (len * eltSize) ∨ xs = []) ∧
    ReplaceOk eltSize dst xs dstoff dstlen src ys srcoff srclen first second := by
  constructor
  · exact appendOk_iff init first second s hsize hdst happend
  constructor
  · exact mapOk_iff inits len first second s hsize hdst hmap
  · exact replaceOk first second hdst hsrc hdstoff hsrcoff hreplace

def byteVector (bytes : List UInt8) : WritableBuffer where
  cells := bytes
  length := some bytes.length
  canFree := true
  fits := by
    intro n hn
    exact Nat.le_of_eq (Option.some.inj hn).symm

def writesByte (rc : Status) (byte : UInt8) : Initialiser Unit 1 where
  run := fun _ _ => (rc, (), [byte])
  size := by
    intro _ _ _
    rfl

theorem byteVector_holds_one (byte : UInt8) : Holds 1 (byteVector [byte]) [[byte]] := by
  constructor
  · rfl
  · intro x hx
    rw [List.mem_singleton.mp hx]
    rfl

/-- The theorem for vectors of one byte and an initialiser that succeeds. -/
theorem failable_vector_operations_oneByte :
    AppendOk (writesByte (.ok ()) 7) (byteVector [5]) [[5]] (some fun _ => 0) none () ∧
    MapOk (fun _ => writesByte (.ok ()) 7) (byteVector [5]) 3 (some fun _ => 0) none () ∧
    ReplaceOk 1 (byteVector [5]) [[5]] 0 0 (byteVector [6]) [[6]] 0 1 (some fun _ => 0) none := by
  have hall := failable_vector_operations (writesByte (.ok ()) 7)
    (fun _ => writesByte (.ok ()) 7) 3 0 0 0 1 (some fun _ => 0) none () (by decide)
    (byteVector_holds_one 5) (byteVector_holds_one 6) (by decide) (by decide) (by decide)
    (by decide) (by decide)
  exact ⟨hall.1.mpr ⟨_, rfl, rfl⟩, hall.2.1.mpr (Or.inl (Or.inr rfl)), hall.2.2⟩

/-- An initialiser fails, and the append says that it succeeded. -/
theorem append_hides_failure :
    ¬ AppendOk (writesByte (.error .noMemory) 7) (byteVector [5]) [[5]] (some fun _ => 0) none
      () := by
  rintro ⟨rc, v', s', hresult, -, hcontract⟩
  have hrc : Except.ok () = rc := congrArg Prod.fst (Option.some.inj hresult)
  obtain ⟨hstatus, -⟩ := hcontract _ rfl
  rw [← hrc] at hstatus
  cases hstatus

end Util
end TreePass
