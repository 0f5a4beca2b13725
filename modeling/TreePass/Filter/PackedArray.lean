import TreePass.Filter.Lookup
import Mathlib.Data.Nat.Digits.Defs
import Mathlib.Data.Nat.Digits.Lemmas

/-!
# Packed arrays

The remainders of a filter lie on its pages as items of `b` bits, one after the other over 32-bit
words.  An item may begin in one word and end in the next.

* `pack`, `get` and `unpack` are the functions, for all widths.
* `Packs` is the invariant of the cases of a pack: what is written so far, as one number.
* `packed_array_round_trip`: items are read back as they were packed, and no other item changes.
-/

namespace TreePass
namespace Filter
namespace PackedArray

/-! ## The code -/

/-- The words, the next one to write and what is there for it. -/
structure PackState where
  words : List Nat
  pos : Nat
  packed : Nat

/-- A case of `__PackedArray_pack_b`, for an item whose number is `i` modulo 32. -/
def packCase (b i item : Nat) (s : PackState) : PackState :=
  let startBit := i * b % 32
  let bitsAvailable := 32 - startBit
  let packed := s.packed ||| (item <<< startBit) % 2 ^ 32
  if b < bitsAvailable then { s with packed := packed }
  else if b = bitsAvailable then ⟨s.words.set s.pos packed, s.pos + 1, 0⟩
  else ⟨s.words.set s.pos packed, s.pos + 1, item >>> bitsAvailable⟩

/-- The cases from `i` on, again from 0 after 31. -/
def packCases (b : Nat) : Nat → List Nat → PackState → PackState
  | _, [], s => s
  | i, item :: items, s => packCases b ((i + 1) % 32) items (packCase b i item s)

/-- `PackedArray_pack`: the loop around the cases and the cases of the rest, and the end, which
keeps the other bits of the last word.  Modulo 32, the bits of the loop do not count there. -/
def pack (b : Nat) (words : List Nat) (offset : Nat) (items : List Nat) : List Nat :=
  let out := offset * b / 32
  let startBit := offset * b % 32
  let s := packCases b (offset % 32) items
    ⟨words, out, words.getD out 0 &&& (2 ^ startBit - 1)⟩
  let endBit := (items.length * b + startBit) % 32
  if endBit = 0 then s.words
  else s.words.set s.pos (s.packed ||| (s.words.getD s.pos 0 &&& (2 ^ 32 - 2 ^ endBit)))

/-- `PackedArray_get`. -/
def get (b : Nat) (words : List Nat) (offset : Nat) : Nat :=
  let pos := offset * b / 32
  let startBit := offset * b % 32
  let bitsAvailable := 32 - startBit
  let mask := 2 ^ b - 1
  let low := words.getD pos 0 >>> startBit
  if b ≤ bitsAvailable then low &&& mask
  else
    let high := (words.getD (pos + 1) 0 <<< bitsAvailable) % 2 ^ 32
    low ^^^ ((low ^^^ high) &&& ((mask >>> bitsAvailable) <<< bitsAvailable))

/-- The cases of `__PackedArray_unpack_b`.  After an item that ends a word, the next word is read,
in the case itself or, after case 31, by the loop around the cases. -/
def unpackCases (b : Nat) (words : List Nat) : Nat → Nat → Nat → Nat → List Nat
  | 0, _, _, _ => []
  | count + 1, i, pos, packed =>
      let startBit := i * b % 32
      let bitsAvailable := 32 - startBit
      let mask := 2 ^ b - 1
      let next := words.getD (pos + 1) 0
      if b < bitsAvailable then
        (packed >>> startBit &&& mask) :: unpackCases b words count ((i + 1) % 32) pos packed
      else if b = bitsAvailable then
        (packed >>> startBit &&& mask) :: unpackCases b words count ((i + 1) % 32) (pos + 1) next
      else
        ((packed >>> startBit ||| (next <<< bitsAvailable) % 2 ^ 32) &&& mask) ::
          unpackCases b words count ((i + 1) % 32) (pos + 1) next

/-- `PackedArray_unpack`. -/
def unpack (b : Nat) (words : List Nat) (offset count : Nat) : List Nat :=
  unpackCases b words count (offset % 32) (offset * b / 32) (words.getD (offset * b / 32) 0)

/-! ## Words as one number -/

open Nat (ofDigits)

theorem testBit_ofDigits {b : Nat} {digits : List Nat} (hdigits : ∀ d ∈ digits, d < 2 ^ b) :
    ∀ i t, t < b → (ofDigits (2 ^ b) digits).testBit (i * b + t) = (digits.getD i 0).testBit t := by
  induction digits with
  | nil => simp
  | cons d digits ih =>
      intro i t ht
      rw [Nat.ofDigits_cons, Nat.add_comm,
        Nat.testBit_two_pow_mul_add _ (hdigits d List.mem_cons_self)]
      cases i with
      | zero => rw [Nat.zero_mul, Nat.zero_add, if_pos ht, List.getD_cons_zero]
      | succ i =>
          rw [Nat.succ_mul, if_neg (by omega), List.getD_cons_succ,
            ← ih (fun e he => hdigits e (List.mem_cons_of_mem _ he)) i t ht]
          congr 1
          omega

theorem testBit_words {words : List Nat} (hwords : ∀ w ∈ words, w < 2 ^ 32) (j : Nat) :
    (ofDigits (2 ^ 32) words).testBit j = (words.getD (j / 32) 0).testBit (j % 32) := by
  rw [← testBit_ofDigits hwords (j / 32) (j % 32) (Nat.mod_lt j (by decide)), Nat.div_add_mod']

theorem getD_lt {words : List Nat} (hwords : ∀ w ∈ words, w < 2 ^ 32) (i : Nat) :
    words.getD i 0 < 2 ^ 32 := by
  rw [List.getD_eq_getElem?_getD]
  cases hword : words[i]? with
  | none => exact Nat.two_pow_pos 32
  | some w => exact hwords w (List.mem_of_getElem? hword)

theorem testBit_of_ge {w t : Nat} (hw : w < 2 ^ 32) (ht : 32 ≤ t) : w.testBit t = false :=
  Nat.testBit_lt_two_pow (Nat.lt_of_lt_of_le hw (Nat.pow_le_pow_right (by decide) ht))

/-! ## Reading -/

section Reading

variable {b : Nat} {words : List Nat}

theorem select_eq {a x : Nat} (hx : x < 2 ^ a) (hab : a ≤ b) (y : Nat) :
    x ^^^ ((x ^^^ (y <<< a) % 2 ^ 32) &&& (((2 ^ b - 1) >>> a) <<< a)) =
      (x ||| (y <<< a) % 2 ^ 32) &&& (2 ^ b - 1) := by
  refine Nat.eq_of_testBit_eq fun t => ?_
  simp only [Nat.testBit_xor, Nat.testBit_and, Nat.testBit_or, Nat.testBit_mod_two_pow,
    Nat.testBit_shiftLeft, Nat.testBit_shiftRight, Nat.testBit_two_pow_sub_one]
  by_cases ht : t < a
  · simp [Nat.not_le.mpr ht, show t < b by omega]
  · have hbit : x.testBit t = false :=
      Nat.testBit_lt_two_pow (Nat.lt_of_lt_of_le hx (Nat.pow_le_pow_right (by decide) (by omega)))
    simp [hbit, Nat.not_lt.mp ht]

theorem get_of_span (hwords : ∀ w ∈ words, w < 2 ^ 32) {offset : Nat}
    (hspan : ¬ b ≤ 32 - offset * b % 32) :
    get b words offset = (words.getD (offset * b / 32) 0 >>> (offset * b % 32) |||
      (words.getD (offset * b / 32 + 1) 0 <<< (32 - offset * b % 32)) % 2 ^ 32) &&&
        (2 ^ b - 1) := by
  unfold get
  dsimp only
  rw [if_neg hspan, select_eq _ (by omega)]
  rw [Nat.shiftRight_eq_div_pow, Nat.div_lt_iff_lt_mul (Nat.two_pow_pos _), ← Nat.pow_add,
    Nat.sub_add_cancel (by omega)]
  exact getD_lt hwords _

theorem get_testBit (hb : b ≤ 32) (hwords : ∀ w ∈ words, w < 2 ^ 32) (offset t : Nat) :
    (get b words offset).testBit t =
      (decide (t < b) && (ofDigits (2 ^ 32) words).testBit (offset * b + t)) := by
  have hlow := getD_lt hwords (offset * b / 32)
  have hmask : ∀ {x y : Bool}, (t < b → x = y) → (decide (t < b) && x) = (decide (t < b) && y) :=
    fun h => by by_cases ht : t < b <;> simp [ht, h]
  by_cases hspan : b ≤ 32 - offset * b % 32
  · unfold get
    dsimp only
    rw [if_pos hspan, Nat.testBit_and, Nat.testBit_shiftRight, Nat.testBit_two_pow_sub_one,
      Bool.and_comm]
    refine hmask fun ht => ?_
    rw [testBit_words hwords, show (offset * b + t) / 32 = offset * b / 32 by omega,
      show (offset * b + t) % 32 = offset * b % 32 + t by omega]
  · rw [get_of_span hwords hspan, Nat.testBit_and, Nat.testBit_two_pow_sub_one, Bool.and_comm]
    refine hmask fun ht => ?_
    rw [testBit_words hwords, Nat.testBit_or, Nat.testBit_shiftRight, Nat.testBit_mod_two_pow,
      Nat.testBit_shiftLeft]
    by_cases havail : t < 32 - offset * b % 32
    · rw [decide_eq_false (Nat.not_le.mpr havail), Bool.false_and, Bool.and_false, Bool.or_false,
        show (offset * b + t) / 32 = offset * b / 32 by omega,
        show (offset * b + t) % 32 = offset * b % 32 + t by omega]
    · rw [testBit_of_ge hlow (by omega), decide_eq_true (by omega), decide_eq_true (by omega),
        Bool.false_or, Bool.true_and, Bool.true_and,
        show (offset * b + t) / 32 = offset * b / 32 + 1 by omega,
        show (offset * b + t) % 32 = t - (32 - offset * b % 32) by omega]

theorem unpackCases_eq (hb : b ≤ 32) (hwords : ∀ w ∈ words, w < 2 ^ 32) (count : Nat) :
    ∀ offset, unpackCases b words count (offset % 32) (offset * b / 32)
        (words.getD (offset * b / 32) 0) =
      (List.range' offset count).map (get b words) := by
  induction count with
  | zero => exact fun _ => rfl
  | succ count ih =>
      intro offset
      have hcase : (offset % 32 + 1) % 32 = (offset + 1) % 32 := by omega
      have hbit : offset % 32 * b % 32 = offset * b % 32 := Nat.mod_mul_mod offset b 32
      have hnext : (offset + 1) * b = offset * b + b := Nat.succ_mul offset b
      rw [List.range'_succ, List.map_cons, ← ih, unpackCases, hcase, hbit]
      by_cases hlt : b < 32 - offset * b % 32
      · rw [if_pos hlt, show (offset + 1) * b / 32 = offset * b / 32 by omega]
        unfold get
        rw [if_pos hlt.le]
      · rw [if_neg hlt, show (offset + 1) * b / 32 = offset * b / 32 + 1 by omega]
        by_cases heq : b = 32 - offset * b % 32
        · rw [if_pos heq]
          unfold get
          rw [if_pos heq.le]
        · rw [if_neg heq, get_of_span hwords (by omega)]

end Reading

/-! ## Writing -/

section Writing

variable {b : Nat} {words : List Nat} {f : Nat → Bool}

/-- **Packed so far**: the bits below `p` are those that they should be, and the words from there on
are as before. -/
structure Packs (words : List Nat) (f : Nat → Bool) (p : Nat) (s : PackState) : Prop where
  pos : s.pos = p / 32
  packed_lt : s.packed < 2 ^ (p % 32)
  lt : ∀ w ∈ s.words, w < 2 ^ 32
  length : s.words.length = words.length
  below : ∀ j < p, (if j / 32 < s.pos then s.words.getD (j / 32) 0 else s.packed).testBit (j % 32) =
    f j
  rest : ∀ i, s.pos ≤ i → s.words.getD i 0 = words.getD i 0

theorem getD_set (words : List Nat) (pos word i : Nat) (hpos : pos < words.length) :
    (words.set pos word).getD i 0 = if i = pos then word else words.getD i 0 := by
  rw [List.getD_eq_getElem?_getD, List.getD_eq_getElem?_getD, List.getElem?_set]
  by_cases hi : pos = i
  · rw [if_pos hi, if_pos hpos, if_pos hi.symm, Option.getD_some]
  · rw [if_neg hi, if_neg (Ne.symm hi)]

theorem packCase_spec (hb : b ≤ 32) {p i item : Nat} {s : PackState} (h : Packs words f p s)
    (hcase : i * b % 32 = p % 32) (hitem : item < 2 ^ b) (hfit : p + b ≤ 32 * words.length)
    (hbits : ∀ t < b, f (p + t) = item.testBit t) :
    Packs words f (p + b) (packCase b i item s) := by
  obtain ⟨hpos, hpacked, hlt, hlength, hbelow, hrest⟩ := h
  have hlow : ∀ t, p % 32 ≤ t → s.packed.testBit t = false := fun t ht =>
    Nat.testBit_lt_two_pow (Nat.lt_of_lt_of_le hpacked (Nat.pow_le_pow_right (by decide) ht))
  have htop : ∀ t, b ≤ t → item.testBit t = false := fun t ht =>
    Nat.testBit_lt_two_pow (Nat.lt_of_lt_of_le hitem (Nat.pow_le_pow_right (by decide) ht))
  -- The word with the item, as far as it fits.
  obtain ⟨word, hword⟩ : ∃ word, s.packed ||| (item <<< (p % 32)) % 2 ^ 32 = word := ⟨_, rfl⟩
  have hwordLt : word < 2 ^ 32 := by
    rw [← hword]
    exact Nat.or_lt_two_pow
      (Nat.lt_of_lt_of_le hpacked (Nat.pow_le_pow_right (by decide) (by omega)))
      (Nat.mod_lt _ (by decide))
  have hwordBit : ∀ j, j / 32 = s.pos → j < p + b → word.testBit (j % 32) = f j := by
    intro j hj hjlt
    rw [← hword, Nat.testBit_or, Nat.testBit_mod_two_pow, Nat.testBit_shiftLeft,
      decide_eq_true (Nat.mod_lt j (by decide)), Bool.true_and]
    by_cases hjp : j < p
    · have hold := hbelow j hjp
      rw [if_neg (by omega)] at hold
      rw [hold, decide_eq_false (by omega), Bool.false_and, Bool.or_false]
    · have hnew := hbits (j - p) (by omega)
      rw [show p + (j - p) = j by omega] at hnew
      rw [hlow _ (by omega), decide_eq_true (by omega), hnew, Bool.false_or, Bool.true_and]
      congr 1
      omega
  unfold packCase
  dsimp only
  rw [hcase, hword]
  by_cases hinside : b < 32 - p % 32
  · rw [if_pos hinside]
    refine ⟨by dsimp only; omega, ?_, hlt, hlength, fun j hj => ?_, hrest⟩
    · rw [show (p + b) % 32 = p % 32 + b by omega, ← hword]
      refine Nat.or_lt_two_pow (Nat.lt_of_lt_of_le hpacked
        (Nat.pow_le_pow_right (by decide) (by omega))) (Nat.lt_of_le_of_lt (Nat.mod_le _ _) ?_)
      rw [Nat.shiftLeft_eq, Nat.pow_add, Nat.mul_comm]
      exact Nat.mul_lt_mul_of_pos_left hitem (Nat.two_pow_pos _)
    · dsimp only
      by_cases hj' : j / 32 < s.pos
      · have hold := hbelow j (by omega)
        rwa [if_pos hj'] at hold ⊢
      · rw [if_neg hj', hwordBit j (by omega) hj]
  · have hlen : s.pos < s.words.length := by omega
    -- What does not fit goes to the next word.
    have hnext : Packs words f (p + b)
        ⟨s.words.set s.pos word, s.pos + 1, item >>> (32 - p % 32)⟩ := by
      refine ⟨by dsimp only; omega, ?_, ?_, by rw [List.length_set, hlength], fun j hj => ?_,
        fun j hj => ?_⟩
      · rw [show (p + b) % 32 = b - (32 - p % 32) by omega, Nat.shiftRight_eq_div_pow,
          Nat.div_lt_iff_lt_mul (Nat.two_pow_pos _), ← Nat.pow_add, Nat.sub_add_cancel (by omega)]
        exact hitem
      · intro w hw
        rcases List.mem_or_eq_of_mem_set hw with hmem | rfl
        · exact hlt w hmem
        · exact hwordLt
      · dsimp only
        rw [getD_set _ _ _ _ hlen]
        rcases Nat.lt_trichotomy (j / 32) s.pos with hj' | hj' | hj'
        · have hold := hbelow j (by omega)
          rw [if_pos hj'] at hold
          rw [if_pos (by omega), if_neg (by omega), hold]
        · rw [if_pos (by omega), if_pos hj', hwordBit j hj' hj]
        · have hnew := hbits (j - p) (by omega)
          rw [show p + (j - p) = j by omega] at hnew
          rw [if_neg (by omega), hnew, Nat.testBit_shiftRight]
          congr 1
          omega
      · dsimp only at hj ⊢
        rw [getD_set _ _ _ _ hlen, if_neg (by omega), hrest j (by omega)]
    rw [if_neg hinside]
    by_cases heq : b = 32 - p % 32
    · have hzero : item >>> (32 - p % 32) = 0 := by
        rw [Nat.shiftRight_eq_div_pow, Nat.div_eq_of_lt (heq ▸ hitem)]
      rw [if_pos heq, ← hzero]
      exact hnext
    · rw [if_neg heq]
      exact hnext

theorem packCases_spec (hb : b ≤ 32) (items : List Nat) : ∀ {offset : Nat} {s : PackState},
    Packs words f (offset * b) s → (∀ item ∈ items, item < 2 ^ b) →
      (offset + items.length) * b ≤ 32 * words.length →
        (∀ i item, items[i]? = some item → ∀ t < b, f ((offset + i) * b + t) = item.testBit t) →
          Packs words f ((offset + items.length) * b) (packCases b (offset % 32) items s) := by
  induction items with
  | nil => exact fun h _ _ _ => h
  | cons item items ih =>
      intro offset s h hitems hfit hbits
      have hnext : (offset + 1) * b = offset * b + b := Nat.succ_mul offset b
      have hlength : offset + (items.length + 1) = offset + 1 + items.length := by omega
      rw [List.length_cons, hlength] at hfit ⊢
      have hle : (offset + 1) * b ≤ (offset + 1 + items.length) * b :=
        Nat.mul_le_mul_right b (Nat.le_add_right _ _)
      have hone := packCase_spec hb h (Nat.mod_mul_mod offset b 32) (hitems item List.mem_cons_self)
        (by omega) (hbits 0 item rfl)
      rw [← hnext] at hone
      rw [packCases, show (offset % 32 + 1) % 32 = (offset + 1) % 32 by omega]
      refine ih hone (fun i hi => hitems i (List.mem_cons_of_mem _ hi)) hfit fun i it hi t ht => ?_
      rw [← hbits (i + 1) it hi t ht, Nat.add_assoc, Nat.add_comm 1]

theorem packs_start (hwords : ∀ w ∈ words, w < 2 ^ 32) {p : Nat}
    (hf : ∀ j < p, f j = (words.getD (j / 32) 0).testBit (j % 32)) :
    Packs words f p ⟨words, p / 32, words.getD (p / 32) 0 &&& (2 ^ (p % 32) - 1)⟩ := by
  refine ⟨rfl, ?_, hwords, rfl, fun j hj => ?_, fun _ _ => rfl⟩
  · rw [Nat.and_two_pow_sub_one_eq_mod]
    exact Nat.mod_lt _ (Nat.two_pow_pos _)
  · rw [hf j hj]
    dsimp only
    by_cases hj' : j / 32 < p / 32
    · rw [if_pos hj']
    · rw [if_neg hj', Nat.testBit_and, Nat.testBit_two_pow_sub_one, decide_eq_true (by omega),
        Bool.and_true, show j / 32 = p / 32 by omega]

/-- **The end of a pack**: the last word keeps what is above the items. -/
theorem Packs.finish {p : Nat} {s : PackState} {out : List Nat} (h : Packs words f p s)
    (hfit : p ≤ 32 * words.length)
    (habove : ∀ j, p ≤ j → f j = (words.getD (j / 32) 0).testBit (j % 32))
    (hout : out = if p % 32 = 0 then s.words else s.words.set s.pos
      (s.packed ||| (s.words.getD s.pos 0 &&& (2 ^ 32 - 2 ^ (p % 32))))) :
    (∀ w ∈ out, w < 2 ^ 32) ∧ ∀ j, (ofDigits (2 ^ 32) out).testBit j = f j := by
  obtain ⟨hpos, hpacked, hlt, hlength, hbelow, hrest⟩ := h
  by_cases hzero : p % 32 = 0
  · rw [if_pos hzero] at hout
    subst hout
    refine ⟨hlt, fun j => ?_⟩
    rw [testBit_words hlt]
    by_cases hj : j < p
    · have hold := hbelow j hj
      rwa [if_pos (by omega)] at hold
    · rw [hrest _ (by omega), habove j (by omega)]
  · rw [if_neg hzero] at hout
    have hlen : s.pos < s.words.length := by omega
    obtain ⟨word, hword⟩ : ∃ word, s.packed ||| (s.words.getD s.pos 0 &&&
        (2 ^ 32 - 2 ^ (p % 32))) = word := ⟨_, rfl⟩
    have hwordLt : word < 2 ^ 32 := by
      rw [← hword]
      exact Nat.or_lt_two_pow
        (Nat.lt_of_lt_of_le hpacked (Nat.pow_le_pow_right (by decide) (by omega)))
        (Nat.lt_of_le_of_lt Nat.and_le_left (getD_lt hlt s.pos))
    rw [hword] at hout
    have hltOut : ∀ w ∈ out, w < 2 ^ 32 := fun w hw =>
      (List.mem_or_eq_of_mem_set (hout ▸ hw)).elim (hlt w) fun heq => heq ▸ hwordLt
    refine ⟨hltOut, fun j => ?_⟩
    rw [testBit_words hltOut, hout, getD_set _ _ _ _ hlen]
    by_cases hj : j / 32 = s.pos
    · -- The mask has the bits from `p % 32` on.
      have hmask := Nat.testBit_two_pow_sub_succ (n := 32) (x := 2 ^ (p % 32) - 1) (by
        have := Nat.pow_lt_pow_right (show 1 < 2 by decide) (show p % 32 < 32 by omega)
        omega) (j % 32)
      rw [Nat.sub_add_cancel (Nat.two_pow_pos _), Nat.testBit_two_pow_sub_one] at hmask
      rw [if_pos hj, ← hword, Nat.testBit_or, Nat.testBit_and, hmask, decide_eq_true (by omega),
        Bool.true_and]
      by_cases hj' : j < p
      · have hold := hbelow j hj'
        rw [if_neg (by omega)] at hold
        rw [hold, decide_eq_true (by omega), Bool.not_true, Bool.and_false, Bool.or_false]
      · have hlow : s.packed < 2 ^ (j % 32) :=
          Nat.lt_of_lt_of_le hpacked (Nat.pow_le_pow_right (by decide) (by omega))
        rw [Nat.testBit_lt_two_pow hlow, decide_eq_false (by omega), habove j (by omega), hj,
          hrest _ le_rfl, Bool.not_false, Bool.and_true, Bool.false_or]
    · rw [if_neg hj]
      by_cases hj' : j < p
      · have hold := hbelow j hj'
        rwa [if_pos (by omega)] at hold
      · rw [hrest _ (by omega), habove j (by omega)]

end Writing

/-! ## Both together -/

section RoundTrip

variable {b : Nat} {words items : List Nat} {offset : Nat}

/-- **The bits after a pack**: those of the items in their place, and all others as before. -/
theorem pack_testBit (hb : b ≤ 32) (hwords : ∀ w ∈ words, w < 2 ^ 32)
    (hitems : ∀ item ∈ items, item < 2 ^ b)
    (hfit : (offset + items.length) * b ≤ 32 * words.length) :
    (∀ w ∈ pack b words offset items, w < 2 ^ 32) ∧
      ∀ j, (ofDigits (2 ^ 32) (pack b words offset items)).testBit j =
        if offset * b ≤ j ∧ j < (offset + items.length) * b then
          (ofDigits (2 ^ b) items).testBit (j - offset * b)
        else (ofDigits (2 ^ 32) words).testBit j := by
  obtain ⟨f, hf⟩ : ∃ f : Nat → Bool, ∀ j, f j =
      if offset * b ≤ j ∧ j < (offset + items.length) * b then
        (ofDigits (2 ^ b) items).testBit (j - offset * b)
      else (ofDigits (2 ^ 32) words).testBit j := ⟨_, fun _ => rfl⟩
  simp only [← hf]
  have hend : (offset + items.length) * b = offset * b + items.length * b := Nat.add_mul ..
  have hstart : Packs words f (offset * b) _ := packs_start hwords fun j hj => by
    rw [hf, if_neg (by omega), testBit_words hwords]
  have hlast := packCases_spec hb items hstart hitems hfit fun i item hi t ht => by
    obtain ⟨hlt, -⟩ := List.getElem?_eq_some_iff.mp hi
    have hitem : (i + 1) * b ≤ items.length * b := Nat.mul_le_mul_right b hlt
    rw [Nat.succ_mul] at hitem
    rw [hf, Nat.add_mul, if_pos (by omega),
      show offset * b + i * b + t - offset * b = i * b + t by omega,
      testBit_ofDigits hitems i t ht, List.getD_eq_getElem?_getD, hi, Option.getD_some]
  refine hlast.finish hfit (fun j hj => by rw [hf, if_neg (by omega), testBit_words hwords]) ?_
  rw [← show (items.length * b + offset * b % 32) % 32 = (offset + items.length) * b % 32 by omega]
  rfl

theorem get_pack (hb : b ≤ 32) (hwords : ∀ w ∈ words, w < 2 ^ 32)
    (hitems : ∀ item ∈ items, item < 2 ^ b) (hfit : (offset + items.length) * b ≤ 32 * words.length)
    {i item : Nat} (hi : items[i]? = some item) :
    get b (pack b words offset items) (offset + i) = item := by
  obtain ⟨hpacked, hbits⟩ := pack_testBit hb hwords hitems hfit
  obtain ⟨hlt, -⟩ := List.getElem?_eq_some_iff.mp hi
  have hend : (i + 1) * b ≤ items.length * b := Nat.mul_le_mul_right b hlt
  rw [Nat.succ_mul] at hend
  refine Nat.eq_of_testBit_eq fun t => ?_
  rw [get_testBit hb hpacked, hbits, Nat.add_mul, Nat.add_mul]
  by_cases ht : t < b
  · rw [decide_eq_true ht, Bool.true_and, if_pos (by omega),
      show offset * b + i * b + t - offset * b = i * b + t by omega, testBit_ofDigits hitems i t ht,
      List.getD_eq_getElem?_getD, hi, Option.getD_some]
  · rw [decide_eq_false ht, Bool.false_and, Nat.testBit_lt_two_pow (Nat.lt_of_lt_of_le
      (hitems item (List.mem_of_getElem? hi)) (Nat.pow_le_pow_right (by decide) (by omega)))]

theorem unpack_pack (hb : b ≤ 32) (hwords : ∀ w ∈ words, w < 2 ^ 32)
    (hitems : ∀ item ∈ items, item < 2 ^ b)
    (hfit : (offset + items.length) * b ≤ 32 * words.length) :
    unpack b (pack b words offset items) offset items.length = items := by
  rw [unpack, unpackCases_eq hb (pack_testBit hb hwords hitems hfit).1]
  refine List.ext_getElem (by simp) fun i _ hi => ?_
  rw [List.getElem_map, List.getElem_range', Nat.one_mul]
  exact get_pack hb hwords hitems hfit (List.getElem?_eq_getElem hi)

/-- **The remainders of a block**, which the filter has as a list, are what its words hold. -/
theorem remainders_packed (hpos : b ≠ 0) (hb : b ≤ 32) (hwords : ∀ w ∈ words, w < 2 ^ 32)
    (hitems : ∀ item ∈ items, item < 2 ^ b) (hfit : items.length * b ≤ 32 * words.length) :
    (∀ i < items.length, getRemainderAndValue b items i = some (get b (pack b words 0 items) i)) ∧
      ∀ buffer, packedArrayUnpack b items buffer =
        unpack b (pack b words 0 items) 0 items.length ++ buffer.drop items.length := by
  rw [← Nat.zero_add items.length] at hfit
  refine ⟨fun i hi => ?_, fun buffer => ?_⟩
  · have hget := get_pack hb hwords hitems hfit (List.getElem?_eq_getElem hi)
    rw [Nat.zero_add] at hget
    rw [getRemainderAndValue, if_neg hpos, List.getElem?_eq_getElem hi, hget]
  · rw [packedArrayUnpack, if_neg hpos, unpack_pack hb hwords hitems hfit]

end RoundTrip

end PackedArray
end Filter
end TreePass
