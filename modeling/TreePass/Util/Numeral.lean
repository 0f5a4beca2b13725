import Mathlib.Tactic.Common

/-!
# Integers as text

The grammar of an integer in a string: white space, an optional sign, the digits of a hexadecimal,
octal or decimal number, and white space.

* `DigitsAfter` gives digits their value, in any base and after any number.
* `Numeral` has the three ways to write a number.
* `Spells` has the sign and the white space, and `Denotes` the integer.
* `Reads` is what is left of the grammar once the base is known.  The lemmas take a string apart
  from the front, one character after the other.
-/

namespace TreePass
namespace Util

/-! ## The grammar -/

/-- White space: a blank, a tab, a new line, a vertical tab, a form feed or a carriage return. -/
def White (c : UInt8) : Prop := c.toNat = 32 ∨ 9 ≤ c.toNat ∧ c.toNat ≤ 13

/-- A character is the digit `d` of a base: a figure, or a letter of either case from ten on. -/
def DigitOf (base : Nat) (c : UInt8) (d : Nat) : Prop :=
  d < base ∧ d < 16 ∧
    (d < 10 ∧ c.toNat = 48 + d ∨ 10 ≤ d ∧ (c.toNat = 55 + d ∨ c.toNat = 87 + d))

/-- The digits `ds` after the number `v` give the number `w`. -/
inductive DigitsAfter (base : Nat) : Nat → List UInt8 → Nat → Prop
  | nil (v : Nat) : DigitsAfter base v [] v
  | cons {v d w : Nat} {c : UInt8} {ds : List UInt8} :
      DigitOf base c d → DigitsAfter base (v * base + d) ds w → DigitsAfter base v (c :: ds) w

/-- The ways to write a number: `0x` or `0X` and hexadecimal digits, `0` and octal digits, or
decimal digits that do not start with `0`. -/
inductive Numeral : List UInt8 → Nat → Prop
  | hexadecimal {x : UInt8} {ds : List UInt8} {v : Nat} :
      x = 120 ∨ x = 88 → ds ≠ [] → DigitsAfter 16 0 ds v → Numeral (48 :: x :: ds) v
  | octal {ds : List UInt8} {v : Nat} : DigitsAfter 8 0 ds v → Numeral (48 :: ds) v
  | decimal {c : UInt8} {ds : List UInt8} {v : Nat} :
      c ≠ 48 → DigitsAfter 10 0 (c :: ds) v → Numeral (c :: ds) v

/-- The optional sign, and whether it is a minus. -/
inductive Sign : Bool → List UInt8 → Prop
  | none : Sign false []
  | plus : Sign false [43]
  | minus : Sign true [45]

def NumeralRest (str : List UInt8) (v : Nat) : Prop :=
  ∃ numeral after, str = numeral ++ after ∧ Numeral numeral v ∧ ∀ c ∈ after, White c

def SignedRest (str : List UInt8) (negative : Bool) (v : Nat) : Prop :=
  ∃ sign rest, str = sign ++ rest ∧ Sign negative sign ∧ NumeralRest rest v

/-- The whole string is white space, a sign, a number and white space. -/
def Spells (str : List UInt8) (negative : Bool) (v : Nat) : Prop :=
  ∃ before rest, str = before ++ rest ∧ (∀ c ∈ before, White c) ∧ SignedRest rest negative v

/-- **The string denotes the integer `z`.**  A minus counts only if it is allowed. -/
def Denotes (minus : Bool) (str : List UInt8) (z : Int) : Prop :=
  ∃ negative v, Spells str negative v ∧ (negative = true → minus = true) ∧
    z = if negative = true then -(v : Int) else v

/-! ## Digits -/

theorem DigitOf.not_white {base d : Nat} {c : UInt8} (h : DigitOf base c d) : ¬ White c := by
  obtain ⟨-, hd, hchar⟩ := h
  unfold White
  omega

theorem DigitOf.unique {base d d' : Nat} {c : UInt8} (h : DigitOf base c d)
    (h' : DigitOf base c d') : d = d' := by
  obtain ⟨-, hd, hchar⟩ := h
  obtain ⟨-, hd', hchar'⟩ := h'
  omega

theorem DigitsAfter.le {base v w : Nat} {ds : List UInt8} (hbase : 0 < base)
    (h : DigitsAfter base v ds w) : v ≤ w := by
  induction h with
  | nil v => exact Nat.le_refl _
  | cons _ _ ih =>
      apply Nat.le_trans _ ih
      exact Nat.le_trans (Nat.le_mul_of_pos_right _ hbase) (Nat.le_add_right _ _)

theorem digitsAfter_zero_cons {base : Nat} (hbase : 0 < base) {ds : List UInt8} {v : Nat} :
    DigitsAfter base 0 (48 :: ds) v ↔ DigitsAfter base 0 ds v := by
  have hzero : DigitOf base 48 0 := ⟨hbase, by decide, Or.inl ⟨by decide, rfl⟩⟩
  constructor
  · intro h
    cases h with
    | cons hdigit htail =>
        obtain rfl := hdigit.unique hzero
        rwa [Nat.zero_mul] at htail
  · intro h
    apply DigitsAfter.cons hzero
    rwa [Nat.zero_mul]

/-! ## Digits and white space -/

/-- Digits after `v` and then white space.  There is a digit, or there has been one before. -/
def Reads (base v : Nat) (convertedAny : Bool) (str : List UInt8) (w : Nat) : Prop :=
  ∃ ds after, str = ds ++ after ∧ DigitsAfter base v ds w ∧ (∀ c ∈ after, White c) ∧
    (convertedAny = true ∨ ds ≠ [])

section Reads

variable {base v w d : Nat} {convertedAny : Bool} {c : UInt8} {str : List UInt8}

theorem reads_of_no_digit (hhead : ∀ c s d, str = c :: s → ¬ DigitOf base c d) :
    Reads base v convertedAny str w ↔
      convertedAny = true ∧ w = v ∧ ∀ c ∈ str, White c := by
  constructor
  · rintro ⟨ds, after, hstr, hdigits, hafter, hany⟩
    cases hdigits with
    | nil =>
        rw [List.nil_append] at hstr
        subst hstr
        exact ⟨hany.resolve_right fun h => h rfl, rfl, hafter⟩
    | cons hdigit _ =>
        exact absurd hdigit (hhead _ _ _ hstr)
  · rintro ⟨hany, rfl, hwhite⟩
    exact ⟨[], str, rfl, .nil _, hwhite, Or.inl hany⟩

theorem reads_nil : Reads base v convertedAny [] w ↔ convertedAny = true ∧ w = v := by
  have hempty : Reads base v convertedAny [] w ↔ _ :=
    reads_of_no_digit fun _ _ _ h => absurd h (List.cons_ne_nil _ _).symm
  rw [hempty]
  simp

theorem reads_cons_white (hc : White c) :
    Reads base v convertedAny (c :: str) w ↔
      convertedAny = true ∧ w = v ∧ ∀ b ∈ c :: str, White b := by
  apply reads_of_no_digit
  intro c' s d hstr hdigit
  obtain ⟨rfl, -⟩ := List.cons.inj hstr
  exact hdigit.not_white hc

theorem reads_cons_digit (hc : DigitOf base c d) :
    Reads base v convertedAny (c :: str) w ↔ Reads base (v * base + d) true str w := by
  constructor
  · rintro ⟨ds, after, hstr, hdigits, hafter, -⟩
    cases hdigits with
    | nil =>
        rw [List.nil_append] at hstr
        subst hstr
        exact absurd (hafter c List.mem_cons_self) hc.not_white
    | cons hdigit htail =>
        obtain ⟨rfl, hrest⟩ := List.cons.inj hstr
        obtain rfl := hdigit.unique hc
        exact ⟨_, after, hrest, htail, hafter, Or.inl rfl⟩
  · rintro ⟨ds, after, rfl, hdigits, hafter, -⟩
    exact ⟨c :: ds, after, rfl, .cons hc hdigits, hafter, Or.inr (List.cons_ne_nil _ _)⟩

theorem not_reads_cons (hwhite : ¬ White c) (hdigit : ∀ d, ¬ DigitOf base c d) :
    ¬ Reads base v convertedAny (c :: str) w := by
  rintro ⟨ds, after, hstr, hdigits, hafter, -⟩
  cases hdigits with
  | nil =>
      rw [List.nil_append] at hstr
      subst hstr
      exact hwhite (hafter c List.mem_cons_self)
  | cons h _ =>
      obtain ⟨rfl, -⟩ := List.cons.inj hstr
      exact hdigit _ h

theorem Reads.le (hbase : 0 < base) (h : Reads base v convertedAny str w) : v ≤ w := by
  obtain ⟨ds, after, -, hdigits, -, -⟩ := h
  exact hdigits.le hbase

end Reads

/-! ## From the front -/

section Front

variable {c : UInt8} {str : List UInt8} {negative : Bool} {v : Nat}

theorem Numeral.head (h : Numeral str v) :
    ∃ c s, str = c :: s ∧ ¬ White c ∧ c ≠ 43 ∧ c ≠ 45 := by
  cases h with
  | hexadecimal _ _ _ => exact ⟨_, _, rfl, by unfold White; decide, by decide, by decide⟩
  | octal _ => exact ⟨_, _, rfl, by unfold White; decide, by decide, by decide⟩
  | decimal _ hdigits =>
      cases hdigits with
      | cons hdigit _ =>
          refine ⟨_, _, rfl, hdigit.not_white, ?_, ?_⟩
          · rintro rfl
            obtain ⟨-, -, hchar⟩ := hdigit
            simp at hchar
            omega
          · rintro rfl
            obtain ⟨-, -, hchar⟩ := hdigit
            simp at hchar
            omega

theorem NumeralRest.head (h : NumeralRest str v) :
    ∃ c s, str = c :: s ∧ ¬ White c ∧ c ≠ 43 ∧ c ≠ 45 := by
  obtain ⟨numeral, after, rfl, hnumeral, -⟩ := h
  obtain ⟨c, s, rfl, hc⟩ := hnumeral.head
  exact ⟨c, s ++ after, rfl, hc⟩

theorem SignedRest.head (h : SignedRest str negative v) : ∃ c s, str = c :: s ∧ ¬ White c := by
  obtain ⟨sign, rest, rfl, hsign, hrest⟩ := h
  cases hsign with
  | none =>
      obtain ⟨c, s, rfl, hc, -⟩ := hrest.head
      exact ⟨c, s, rfl, hc⟩
  | plus => exact ⟨43, rest, rfl, by unfold White; decide⟩
  | minus => exact ⟨45, rest, rfl, by unfold White; decide⟩

theorem spells_cons_white (hc : White c) :
    Spells (c :: str) negative v ↔ Spells str negative v := by
  constructor
  · rintro ⟨before, rest, hstr, hbefore, hrest⟩
    cases before with
    | nil =>
        obtain ⟨c', s, rfl, hc'⟩ := hrest.head
        obtain ⟨rfl, -⟩ := List.cons.inj hstr
        exact absurd hc hc'
    | cons b before =>
        obtain ⟨rfl, htail⟩ := List.cons.inj hstr
        exact ⟨before, rest, htail, fun c hmem => hbefore c (List.mem_cons_of_mem _ hmem), hrest⟩
  · rintro ⟨before, rest, rfl, hbefore, hrest⟩
    refine ⟨c :: before, rest, rfl, ?_, hrest⟩
    intro b hb
    rcases List.mem_cons.mp hb with rfl | hb
    · exact hc
    · exact hbefore b hb

theorem spells_of_not_white (hstr : ∀ c s, str = c :: s → ¬ White c) :
    Spells str negative v ↔ SignedRest str negative v := by
  constructor
  · rintro ⟨before, rest, hsplit, hbefore, hrest⟩
    cases before with
    | nil =>
        rw [hsplit]
        exact hrest
    | cons b before => exact absurd (hbefore b List.mem_cons_self) (hstr b _ hsplit)
  · intro h
    exact ⟨[], str, rfl, fun _ hmem => (List.not_mem_nil hmem).elim, h⟩

theorem signedRest_minus : SignedRest (45 :: str) negative v ↔
    negative = true ∧ NumeralRest str v := by
  constructor
  · rintro ⟨sign, rest, hstr, hsign, hrest⟩
    cases hsign with
    | none =>
        obtain ⟨c, s, hs, -, -, hc⟩ := hrest.head
        rw [List.nil_append, hs] at hstr
        exact absurd (List.cons.inj hstr).1.symm hc
    | plus => exact absurd (List.cons.inj hstr).1 (by decide)
    | minus =>
        obtain ⟨-, rfl⟩ := List.cons.inj hstr
        exact ⟨rfl, hrest⟩
  · rintro ⟨rfl, hrest⟩
    exact ⟨[45], str, rfl, .minus, hrest⟩

theorem signedRest_plus : SignedRest (43 :: str) negative v ↔
    negative = false ∧ NumeralRest str v := by
  constructor
  · rintro ⟨sign, rest, hstr, hsign, hrest⟩
    cases hsign with
    | none =>
        obtain ⟨c, s, hs, -, hc, -⟩ := hrest.head
        rw [List.nil_append, hs] at hstr
        exact absurd (List.cons.inj hstr).1.symm hc
    | plus =>
        obtain ⟨-, rfl⟩ := List.cons.inj hstr
        exact ⟨rfl, hrest⟩
    | minus => exact absurd (List.cons.inj hstr).1 (by decide)
  · rintro ⟨rfl, hrest⟩
    exact ⟨[43], str, rfl, .plus, hrest⟩

theorem signedRest_of_no_sign (hstr : ∀ c s, str = c :: s → c ≠ 43 ∧ c ≠ 45) :
    SignedRest str negative v ↔ negative = false ∧ NumeralRest str v := by
  constructor
  · rintro ⟨sign, rest, hsplit, hsign, hrest⟩
    cases hsign with
    | none =>
        rw [hsplit]
        exact ⟨rfl, hrest⟩
    | plus => exact absurd rfl (hstr 43 rest hsplit).1
    | minus => exact absurd rfl (hstr 45 rest hsplit).2
  · rintro ⟨rfl, hrest⟩
    exact ⟨[], str, rfl, .none, hrest⟩

/-! ## The base -/

theorem hexadecimalLetter {x : UInt8} (hx : x = 120 ∨ x = 88) :
    ¬ White x ∧ ∀ d, ¬ DigitOf 8 x d := by
  have hnat : x.toNat = 120 ∨ x.toNat = 88 := by
    rcases hx with rfl | rfl
    · exact Or.inl rfl
    · exact Or.inr rfl
  unfold White DigitOf
  constructor
  · omega
  · intro d
    omega

theorem numeralRest_hexadecimal {x : UInt8} (hx : x = 120 ∨ x = 88) :
    NumeralRest (48 :: x :: str) v ↔ Reads 16 0 false str v := by
  constructor
  · rintro ⟨numeral, after, hstr, hnumeral, hafter⟩
    cases hnumeral with
    | hexadecimal _ hds hdigits =>
        obtain ⟨-, htail⟩ := List.cons.inj hstr
        obtain ⟨-, htail⟩ := List.cons.inj htail
        exact ⟨_, after, htail, hdigits, hafter, Or.inr hds⟩
    | octal hdigits =>
        -- An octal number would end before the letter, which is no white space.
        obtain ⟨-, htail⟩ := List.cons.inj hstr
        cases hdigits with
        | nil =>
            have hafter' : after = x :: str := htail.symm
            subst hafter'
            exact absurd (hafter x List.mem_cons_self) (hexadecimalLetter hx).1
        | cons hdigit _ =>
            obtain ⟨rfl, -⟩ := List.cons.inj htail
            exact absurd hdigit ((hexadecimalLetter hx).2 _)
    | decimal hzero _ => exact absurd (List.cons.inj hstr).1.symm hzero
  · rintro ⟨ds, after, rfl, hdigits, hafter, hany⟩
    refine ⟨48 :: x :: ds, after, rfl, .hexadecimal hx ?_ hdigits, hafter⟩
    exact hany.resolve_left Bool.false_ne_true

theorem numeralRest_octal (hstr : ∀ x s, str = x :: s → ¬ (x = 120 ∨ x = 88)) :
    NumeralRest (48 :: str) v ↔ Reads 8 0 false (48 :: str) v := by
  constructor
  · rintro ⟨numeral, after, hsplit, hnumeral, hafter⟩
    cases hnumeral with
    | hexadecimal hx _ _ =>
        obtain ⟨-, htail⟩ := List.cons.inj hsplit
        exact absurd hx (hstr _ _ htail)
    | octal hdigits =>
        exact ⟨_, after, hsplit, (digitsAfter_zero_cons (by omega)).mpr hdigits, hafter,
          Or.inr (List.cons_ne_nil _ _)⟩
    | decimal hzero _ => exact absurd (List.cons.inj hsplit).1.symm hzero
  · rintro ⟨ds, after, hsplit, hdigits, hafter, hany⟩
    cases hdigits with
    | nil => exact absurd rfl (hany.resolve_left Bool.false_ne_true)
    | cons hdigit htail =>
        have hdigits := DigitsAfter.cons hdigit htail
        obtain ⟨rfl, -⟩ := List.cons.inj hsplit
        exact ⟨_, after, hsplit, .octal ((digitsAfter_zero_cons (by omega)).mp hdigits), hafter⟩

theorem numeralRest_decimal (hstr : ∀ c s, str = c :: s → c ≠ 48) :
    NumeralRest str v ↔ Reads 10 0 false str v := by
  constructor
  · rintro ⟨numeral, after, hsplit, hnumeral, hafter⟩
    cases hnumeral with
    | hexadecimal _ _ _ => exact absurd rfl (hstr _ _ hsplit)
    | octal _ => exact absurd rfl (hstr _ _ hsplit)
    | decimal _ hdigits =>
        exact ⟨_, after, hsplit, hdigits, hafter, Or.inr (List.cons_ne_nil _ _)⟩
  · rintro ⟨ds, after, hsplit, hdigits, hafter, hany⟩
    cases hdigits with
    | nil => exact absurd rfl (hany.resolve_left Bool.false_ne_true)
    | cons hdigit htail =>
        exact ⟨_, after, hsplit, .decimal (hstr _ _ hsplit) (.cons hdigit htail), hafter⟩

end Front

end Util
end TreePass
