import TreePass.Btree.Page

/-!
# The byte borrowed from a child address

Child addresses are aligned to 4 KiB, and byte 0 of the child address of a pivot holds other data:
a flag `SPECIAL` in bit 7 and a count in the bits below.  The loops of the source that change this
byte with a compare-and-exchange are modelled by their attempts, each with the byte it has loaded
before, so a sequence of accesses is any interleaving of the threads that run them.

* `MetaAccess.apply` is one access; `setCount_count`, `increment_count` and `special_of_count` say
  what it does to the two fields.
* `eraseMeta` forgets the byte, and `eraseMeta_pivotMetaAccess` says that an access changes nothing
  else.
-/

namespace TreePass
namespace Btree

/-- `PIVOT_META_SPECIAL`. -/
def pivotMetaSpecial : BitVec 8 := 0x80

/-- `PIVOT_META_CNT_MASK`. -/
def pivotMetaCntMask : BitVec 8 := 0x7F

/-- `PIVOT_CNT_OVERFLOW_THRESHOLD`. -/
def pivotCntOverflowThreshold : Nat := 127

/-! ## The byte -/

def byte0 (word : Addr) : BitVec 8 := word.setWidth 8

def withByte0 (word : Addr) (b : BitVec 8) : Addr := (word &&& ~~~(0xFF : Addr)) ||| b.setWidth 64

theorem byte0_withByte0 (word : Addr) (b : BitVec 8) : byte0 (withByte0 word b) = b := by
  have hmask : (~~~(0xFF : Addr)).setWidth 8 = 0#8 := by decide
  rw [byte0, withByte0, BitVec.setWidth_or, BitVec.setWidth_and, hmask, BitVec.and_zero,
    BitVec.zero_or, BitVec.setWidth_setWidth_of_le b (by decide), BitVec.setWidth_eq]

private theorem byte_masked : ∀ b : BitVec 8,
    b.setWidth 64 &&& ~~~(0xFF : Addr) = 0#64 ∧ b.setWidth 64 &&& ~~~(0xFFF : Addr) = 0#64 := by
  decide +kernel

theorem withByte0_masked (word : Addr) (b : BitVec 8) :
    withByte0 word b &&& ~~~(0xFFF : Addr) = word &&& ~~~(0xFFF : Addr) := by
  rw [withByte0, BitVec.and_or_distrib_right, (byte_masked b).2, BitVec.or_zero, BitVec.and_assoc]
  congr 1

theorem withByte0_withByte0 (word : Addr) (b b' : BitVec 8) :
    withByte0 (withByte0 word b) b' = withByte0 word b' := by
  rw [withByte0, withByte0, BitVec.and_or_distrib_right, (byte_masked b).1, BitVec.or_zero,
    BitVec.and_assoc, BitVec.and_self]
  rfl

theorem withByte0_of_masked (word : Addr) :
    withByte0 (word &&& ~~~(0xFFF : Addr)) 0 = word &&& ~~~(0xFFF : Addr) := by
  rw [withByte0, BitVec.and_assoc]
  exact BitVec.or_zero

theorem eq_of_byte0_eq {word word' : Addr} (hrest : withByte0 word 0 = withByte0 word' 0)
    (hbyte : byte0 word = byte0 word') : word = word' := by
  have hback : ∀ w : Addr, withByte0 (withByte0 w 0) (byte0 w) = w := by
    intro w
    have hlow : (byte0 w).setWidth 64 = w &&& (0xFF : Addr) := by
      refine BitVec.eq_of_toNat_eq ?_
      have hmask : (0xFF : Addr).toNat = 2 ^ 8 - 1 := by decide
      rw [byte0, BitVec.toNat_setWidth, BitVec.toNat_setWidth, BitVec.toNat_and, hmask,
        Nat.and_two_pow_sub_one_eq_mod]
      omega
    rw [withByte0_withByte0, withByte0, hlow, ← BitVec.and_or_distrib_left]
    exact BitVec.and_allOnes
  rw [← hback word, hrest, hbyte, hback word']

/-! ## Accesses -/

/-- `btree_pivot_meta_cnt7`. -/
def metaCnt7 (b : BitVec 8) : BitVec 8 := b &&& pivotMetaCntMask

/-- The test of `pivot_is_special`. -/
def metaIsSpecial (b : BitVec 8) : Bool := b &&& pivotMetaSpecial != 0

/-- The value `btree_pivot_meta_set_count` wants to store over `old`. -/
def setCountValue (old count : BitVec 8) : BitVec 8 :=
  (old &&& pivotMetaSpecial) ||| (if count > pivotMetaCntMask then pivotMetaCntMask else count)

/-- The value `btree_pivot_meta_cnt7_inc_atomic` wants to store over `old`; `none` where it
returns without an exchange. -/
def incrementValue (old : BitVec 8) : Option (BitVec 8) :=
  if metaIsSpecial old then none
  else if metaCnt7 old ≥ pivotMetaCntMask then none
  else some ((old &&& pivotMetaSpecial) ||| (metaCnt7 old + 1))

/-- An atomic access to the byte.  An attempt to exchange it comes with the byte loaded before. -/
inductive MetaAccess where
  | markSpecial
  | clearSpecial
  | setCount (old count : BitVec 8)
  | increment (old : BitVec 8)
  deriving DecidableEq

/-- The byte after an access: an exchange succeeds if the byte is still the one loaded. -/
def MetaAccess.apply : MetaAccess → BitVec 8 → BitVec 8
  | .markSpecial, b => b ||| pivotMetaSpecial
  | .clearSpecial, b => b &&& ~~~pivotMetaSpecial
  | .setCount old count, b => if b = old then setCountValue old count else b
  | .increment old, b => if b = old then (incrementValue old).getD b else b

theorem metaCnt7_le (b : BitVec 8) : (metaCnt7 b).toNat ≤ 127 := by
  rw [metaCnt7, pivotMetaCntMask, BitVec.toNat_and]
  exact Nat.and_le_right

private theorem clamped_masked : ∀ count : BitVec 8,
    (if count > pivotMetaCntMask then pivotMetaCntMask else count) &&& pivotMetaSpecial = 0#8 ∧
      ((if count > pivotMetaCntMask then pivotMetaCntMask else count) &&& pivotMetaCntMask).toNat =
        min count.toNat 127 := by decide +kernel

theorem setCountValue_special (old count : BitVec 8) :
    setCountValue old count &&& pivotMetaSpecial = old &&& pivotMetaSpecial := by
  rw [setCountValue, BitVec.and_or_distrib_right, (clamped_masked count).1, BitVec.or_zero,
    BitVec.and_assoc, BitVec.and_self]

theorem setCountValue_count (old count : BitVec 8) :
    (metaCnt7 (setCountValue old count)).toNat = min count.toNat 127 := by
  have hdisjoint : pivotMetaSpecial &&& pivotMetaCntMask = 0#8 := by decide
  rw [metaCnt7, setCountValue, BitVec.and_or_distrib_right, BitVec.and_assoc, hdisjoint,
    BitVec.and_zero, BitVec.zero_or, (clamped_masked count).2]

theorem incrementValue_eq_some {old b : BitVec 8} (h : incrementValue old = some b) :
    b &&& pivotMetaSpecial = old &&& pivotMetaSpecial ∧
      (metaCnt7 b).toNat = (metaCnt7 old).toNat + 1 := by
  have hall : ∀ old : BitVec 8, (incrementValue old).all fun b =>
      b &&& pivotMetaSpecial == old &&& pivotMetaSpecial &&
        (metaCnt7 b).toNat == (metaCnt7 old).toNat + 1 := by decide +kernel
  have hold := hall old
  rw [h, Option.all_some, Bool.and_eq_true, beq_iff_eq, beq_iff_eq] at hold
  exact hold

/-- **Counting keeps the flag.**  An attempt to set or to increment the count leaves `SPECIAL` as
it is, whether the exchange succeeds or not. -/
theorem special_of_count (access : MetaAccess) (b : BitVec 8)
    (hcount : access ≠ .markSpecial ∧ access ≠ .clearSpecial) :
    access.apply b &&& pivotMetaSpecial = b &&& pivotMetaSpecial := by
  cases access with
  | markSpecial => exact absurd rfl hcount.1
  | clearSpecial => exact absurd rfl hcount.2
  | setCount old count =>
      rw [MetaAccess.apply]
      by_cases h : b = old
      · rw [if_pos h, setCountValue_special, h]
      · rw [if_neg h]
  | increment old =>
      rw [MetaAccess.apply]
      by_cases h : b = old
      · rw [if_pos h]
        cases hvalue : incrementValue old with
        | none => rfl
        | some new => rw [Option.getD_some, (incrementValue_eq_some hvalue).1, h]
      · rw [if_neg h]

/-! ## Accesses to the pivots of a page -/

namespace OndiskIndexEntry

variable {K : Type} (e : OndiskIndexEntry K)

/-- `btree_pivot_meta_load`. -/
def pivotMeta : BitVec 8 := byte0 e.pivotData.childAddr

def withPivotMeta (b : BitVec 8) : OndiskIndexEntry K :=
  { e with pivotData := { e.pivotData with childAddr := withByte0 e.pivotData.childAddr b } }

def pivotMetaAccess (access : MetaAccess) : OndiskIndexEntry K :=
  e.withPivotMeta (access.apply e.pivotMeta)

/-- `btree_pivot_meta_set_count`, with nobody else at the byte. -/
def pivotMetaSetCount (count : BitVec 8) : OndiskIndexEntry K :=
  e.pivotMetaAccess (.setCount e.pivotMeta count)

theorem pivotMeta_pivotMetaAccess (access : MetaAccess) :
    (e.pivotMetaAccess access).pivotMeta = access.apply e.pivotMeta :=
  byte0_withByte0 e.pivotData.childAddr _

/-- The entry without what is borrowed from its child address. -/
def eraseMeta : OndiskIndexEntry K := e.withPivotMeta 0

theorem maskedChildAddr_withPivotMeta (b : BitVec 8) :
    (e.withPivotMeta b).maskedChildAddr = e.maskedChildAddr :=
  withByte0_masked e.pivotData.childAddr b

theorem eraseMeta_withPivotMeta (b : BitVec 8) : (e.withPivotMeta b).eraseMeta = e.eraseMeta := by
  rw [eraseMeta, eraseMeta, withPivotMeta, withPivotMeta, withPivotMeta]
  rw [withByte0_withByte0]

@[simp] theorem maskedChildAddr_eraseMeta : e.eraseMeta.maskedChildAddr = e.maskedChildAddr :=
  e.maskedChildAddr_withPivotMeta 0

end OndiskIndexEntry

def Entry.mapIndex {K : Type} (f : OndiskIndexEntry K → OndiskIndexEntry K) : Entry K → Entry K
  | .leaf e => .leaf e
  | .index e => .index (f e)

def Entry.eraseMeta {K : Type} (entry : Entry K) : Entry K := entry.mapIndex .eraseMeta

def Slot.eraseMeta {K : Type} (slot : Slot K) : Slot K := { slot with entry := slot.entry.eraseMeta }

namespace Page

variable {K : Type} (hdr : Page K)

/-- The page without what is borrowed from its child addresses. -/
def eraseMeta : Page K := { hdr with slots := hdr.slots.map Slot.eraseMeta }

def pivotMetaAccess (k : Nat) (access : MetaAccess) : Page K :=
  { hdr with slots := hdr.slots.modify k fun slot =>
      { slot with entry := slot.entry.mapIndex fun e => e.pivotMetaAccess access } }

/-- The loops that set the counts of all pivots of a page to 0. -/
def resetCounts : Page K :=
  { hdr with slots := hdr.slots.map fun slot =>
      { slot with entry := slot.entry.mapIndex fun e => e.pivotMetaSetCount 0 } }

end Page

theorem Entry.eraseMeta_mapIndex {K : Type} {f : OndiskIndexEntry K → OndiskIndexEntry K}
    (hf : ∀ e, (f e).eraseMeta = e.eraseMeta) (entry : Entry K) :
    (entry.mapIndex f).eraseMeta = entry.eraseMeta := by
  cases entry with
  | leaf e => rfl
  | index e => exact congrArg Entry.index (hf e)

theorem Page.eraseMeta_pivotMetaAccess {K : Type} (hdr : Page K) (k : Nat) (access : MetaAccess) :
    (hdr.pivotMetaAccess k access).eraseMeta = hdr.eraseMeta := by
  have hslot : ∀ slot : Slot K,
      Slot.eraseMeta { slot with entry := slot.entry.mapIndex fun e => e.pivotMetaAccess access } =
        slot.eraseMeta := fun slot =>
    congrArg (Slot.mk slot.offset) (Entry.eraseMeta_mapIndex (fun e => e.eraseMeta_withPivotMeta _) _)
  rw [eraseMeta, eraseMeta, pivotMetaAccess]
  congr 1
  refine List.ext_getElem? fun i => ?_
  rw [List.getElem?_map, List.getElem?_map, List.getElem?_modify]
  cases hdr.slots[i]? with
  | none => rfl
  | some slot =>
      change some _ = some _
      dsimp only
      by_cases h : k = i
      · rw [if_pos h]
        exact congrArg some (hslot slot)
      · rw [if_neg h]

theorem Page.eraseMeta_resetCounts {K : Type} (hdr : Page K) :
    hdr.resetCounts.eraseMeta = hdr.eraseMeta := by
  rw [eraseMeta, eraseMeta, resetCounts]
  congr 1
  rw [List.map_map]
  refine List.map_congr_left fun slot _ => ?_
  exact congrArg (Slot.mk slot.offset)
    (Entry.eraseMeta_mapIndex (fun e => e.eraseMeta_withPivotMeta _) _)

end Btree
end TreePass
