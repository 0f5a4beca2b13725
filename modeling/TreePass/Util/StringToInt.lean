import TreePass.Util.Numeral
import Mathlib.Algebra.Group.Nat.Defs

/-!
# Parsing integers

The `try_string_to_(u)int` functions parse a string that ends in a zero byte.  A position in the
string is the list of the bytes from there on, the zero included, so that there is nothing to read
behind it; a read there gives no result.

* `tryStringToUint64Limit` is the parser, for a limit on either side of zero.
* `tryStringToUint64` to `tryStringToInt8` are the functions for one type each.
* `Converts` says that a function accepts the integers of its range and no other string.
* `try_string_to_integers` says it of all eight.
-/

namespace TreePass
namespace Util

/-! ## The parser -/

/-- `isspace`, in the C locale. -/
def isspace (c : UInt8) : Bool := decide (c.toNat = 32 ∨ 9 ≤ c.toNat ∧ c.toNat ≤ 13)

/-- `isascii`. -/
def isascii (c : UInt8) : Bool := decide (c.toNat < 128)

/-- `isdigit`. -/
def isdigit (c : UInt8) : Bool := decide (48 ≤ c.toNat ∧ c.toNat ≤ 57)

/-- `isupper`, in the C locale. -/
def isupper (c : UInt8) : Bool := decide (65 ≤ c.toNat ∧ c.toNat ≤ 90)

/-- `isalpha`, in the C locale. -/
def isalpha (c : UInt8) : Bool := isupper c || decide (97 ≤ c.toNat ∧ c.toNat ≤ 122)

/-- The labels where the parser gives up. -/
inductive ParseFailure where
  | noDigits
  | negativeDisallowed
  | invalidCharacters
  | overflow
  | multipleStrings
  deriving DecidableEq, Repr

/-- The outcome of a part of the parser; there is none if it reads behind the string. -/
abbrev Parsed (α : Type) := Option (Except ParseFailure α)

/-- White space is skipped, to the first character `c` that is none. -/
def skipSpaces : List UInt8 → Option (List UInt8)
  | [] => none
  | c :: s => if isspace c = true then skipSpaces s else some (c :: s)

/-- The sign, if there is one, and whether the number is negative. -/
def readSign (negativeLimit : BitVec 64) : List UInt8 → Parsed (Bool × List UInt8)
  | [] => none
  | c :: s =>
      if c = 45 then
        if negativeLimit = 0 then some (.error .negativeDisallowed) else some (.ok (true, s))
      else if c = 43 then some (.ok (false, s))
      else some (.ok (false, c :: s))

/-- The base, by looking at two characters, and where its digits start. -/
def detectBase : List UInt8 → Option (Nat × List UInt8)
  | [] => none
  | c :: s =>
      if c = 48 then
        match s with
        | [] => none
        | x :: digits =>
            if x = 120 ∨ x = 88 then some (16, digits) else some (8, c :: x :: digits)
      else some (10, c :: s)

def characterNumber (c : UInt8) : Option Nat :=
  if isascii c = false then none
  else if isdigit c = true then some (c.toNat - 48)
  else if isalpha c = true then some (c.toNat - if isupper c = true then 65 - 10 else 97 - 10)
  else none

def convertDigits (base : Nat) (limit : BitVec 64) :
    List UInt8 → BitVec 64 → Bool → Parsed (List UInt8 × BitVec 64 × Bool)
  | [], _, _ => none
  | c :: s, value, convertedAny =>
      let cutoff := limit.toNat / base
      let cutlim := limit.toNat % base
      if c = 0 then some (.ok (c :: s, value, convertedAny))
      else if isspace c = true then some (.ok (c :: s, value, convertedAny))
      else
        match characterNumber c with
        | none => some (.error .invalidCharacters)
        | some d =>
            if base ≤ d then some (.error .invalidCharacters)
            else if cutoff < value.toNat ∨ value.toNat = cutoff ∧ cutlim < d then
              some (.error .overflow)
            else
              convertDigits base limit s (value * BitVec.ofNat 64 base + BitVec.ofNat 64 d) true

/-- What comes after the digits: white space and the end of the string. -/
def endOfString (s : List UInt8) (value : BitVec 64) (convertedAny : Bool) : Parsed (BitVec 64) :=
  (skipSpaces s).bind fun s =>
    match s with
    | [] => none
    | c :: _ =>
        if c ≠ 0 then some (.error .multipleStrings)
        else if convertedAny = false then some (.error .noDigits)
        else some (.ok value)

def readNumber (base : Nat) (limit : BitVec 64) (s : List UInt8) (value : BitVec 64)
    (convertedAny : Bool) : Parsed (BitVec 64) :=
  (convertDigits base limit s value convertedAny).bind fun converted =>
    match converted with
    | .error e => some (.error e)
    | .ok (s, value, convertedAny) => endOfString s value convertedAny

/-- What comes after the sign: the base, and the number, which is negated after a minus. -/
def readMagnitude (negative : Bool) (limit : BitVec 64) (s : List UInt8) : Parsed (BitVec 64) :=
  (detectBase s).bind fun based =>
    (readNumber based.1 limit based.2 0 false).map fun number =>
      match number with
      | .error e => .error e
      | .ok value => .ok (if negative = true then -value else value)

/-- The body of `try_string_to_uint64_limit`: the value, or the label it jumps to. -/
def parseUint64Limit (nptr : List UInt8) (negativeLimit positiveLimit : BitVec 64) :
    Parsed (BitVec 64) :=
  (skipSpaces nptr).bind fun s =>
    (readSign negativeLimit s).bind fun signed =>
      match signed with
      | .error e => some (.error e)
      | .ok (negative, s) =>
          readMagnitude negative (if negative = true then negativeLimit else positiveLimit) s

/-- `try_string_to_uint64_limit`. -/
def tryStringToUint64Limit (nptr : List UInt8) (negativeLimit positiveLimit n : BitVec 64) :
    Option (Bool × BitVec 64) :=
  (parseUint64Limit nptr negativeLimit positiveLimit).map fun parsed =>
    match parsed with
    | .error _ => (false, n)
    | .ok value => (true, value)

/-! ## The functions -/

/-- `try_string_to_uint64`. -/
def tryStringToUint64 (nptr : List UInt8) (n : BitVec 64) : Option (Bool × BitVec 64) :=
  tryStringToUint64Limit nptr 0 18446744073709551615 n

/-- `try_string_to_int64`. -/
def tryStringToInt64 (nptr : List UInt8) (n : BitVec 64) : Option (Bool × BitVec 64) :=
  -- `u64` is not read unless it was set.
  (tryStringToUint64Limit nptr (9223372036854775807 + 1) 9223372036854775807 0).map fun r =>
    if r.1 = false then (false, n) else (true, r.2)

/-- A function for a narrower unsigned type with the maximum `max`. -/
def tryStringToUint (width : Nat) (max : Nat) (nptr : List UInt8) (n : BitVec width) :
    Option (Bool × BitVec width) :=
  -- `tmp` is not read unless it was set.
  (tryStringToUint64 nptr 0).map fun tmp =>
    if tmp.1 = false ∨ max < tmp.2.toNat then (false, n) else (true, tmp.2.setWidth width)

/-- A function for a narrower signed type from `min` to `max`. -/
def tryStringToInt (width : Nat) (max min : Int) (nptr : List UInt8) (n : BitVec width) :
    Option (Bool × BitVec width) :=
  (tryStringToInt64 nptr 0).map fun tmp =>
    if tmp.1 = false ∨ max < tmp.2.toInt ∨ tmp.2.toInt < min then (false, n)
    else (true, tmp.2.setWidth width)

/-- `try_string_to_uint32`. -/
def tryStringToUint32 := tryStringToUint 32 4294967295

/-- `try_string_to_uint16`. -/
def tryStringToUint16 := tryStringToUint 16 65535

/-- `try_string_to_uint8`. -/
def tryStringToUint8 := tryStringToUint 8 255

/-- `try_string_to_int32`. -/
def tryStringToInt32 := tryStringToInt 32 2147483647 (-2147483648)

/-- `try_string_to_int16`. -/
def tryStringToInt16 := tryStringToInt 16 32767 (-32768)

/-- `try_string_to_int8`. -/
def tryStringToInt8 := tryStringToInt 8 127 (-128)

/-! ## Characters -/

theorem isspace_iff {c : UInt8} : isspace c = true ↔ White c := by
  unfold isspace White
  exact decide_eq_true_iff

theorem digitOf_iff {base : Nat} (hbase : base ≤ 16) {c : UInt8} {d : Nat} :
    DigitOf base c d ↔ characterNumber c = some d ∧ d < base := by
  unfold DigitOf characterNumber isascii isdigit isalpha isupper
  simp only [Bool.or_eq_true, decide_eq_true_eq, decide_eq_false_iff_not]
  split_ifs with hascii hfigure hletter hupper
  · simp
    omega
  · simp
    omega
  · simp
    omega
  · simp
    omega
  · simp
    omega

/-! ## Parts of the string -/

section Parts

variable {α : Type} {c : UInt8} {str : List UInt8}

/-- A part of the parser gives the value with the property, and gives up if there is none. -/
def Decides (P : α → Prop) (run : Parsed α) : Prop :=
  (∀ a, P a → run = some (.ok a)) ∧ ((∀ a, ¬ P a) → ∃ e, run = some (.error e))

theorem Decides.congr {P Q : α → Prop} {run : Parsed α} (h : Decides P run)
    (hiff : ∀ a, Q a ↔ P a) : Decides Q run := by
  constructor
  · intro a ha
    exact h.1 a ((hiff a).mp ha)
  · intro hnone
    exact h.2 fun a ha => hnone a ((hiff a).mpr ha)

theorem decides_error {P : α → Prop} (e : ParseFailure) (h : ∀ a, ¬ P a) :
    Decides P (some (.error e)) :=
  ⟨fun a ha => absurd ha (h a), fun _ => ⟨e, rfl⟩⟩

theorem skipSpaces_spec (str : List UInt8) :
    ∃ before rest, str = before ++ rest ∧ (∀ c ∈ before, White c) ∧
      (∀ c s, rest = c :: s → ¬ White c) ∧ skipSpaces (str ++ [0]) = some (rest ++ [0]) := by
  induction str with
  | nil => exact ⟨[], [], rfl, by simp, by simp, rfl⟩
  | cons c str ih =>
      rw [List.cons_append]
      unfold skipSpaces
      by_cases hc : White c
      · obtain ⟨before, rest, rfl, hbefore, hrest, hskip⟩ := ih
        rw [if_pos (isspace_iff.mpr hc)]
        refine ⟨c :: before, rest, rfl, ?_, hrest, hskip⟩
        intro b hb
        rcases List.mem_cons.mp hb with rfl | hb
        · exact hc
        · exact hbefore b hb
      · rw [if_neg fun h => hc (isspace_iff.mp h)]
        refine ⟨[], c :: str, rfl, by simp, ?_, rfl⟩
        intro c' s h
        obtain ⟨rfl, -⟩ := List.cons.inj h
        exact hc

theorem endOfString_spec (hstr : (0 : UInt8) ∉ str) (value : BitVec 64) (convertedAny : Bool) :
    Decides (fun w => convertedAny = true ∧ w = value ∧ ∀ c ∈ str, White c)
      (endOfString (str ++ [0]) value convertedAny) := by
  obtain ⟨before, rest, rfl, hbefore, hrest, hskip⟩ := skipSpaces_spec str
  unfold endOfString
  rw [hskip, Option.bind_some]
  cases rest with
  | nil =>
      dsimp only [List.nil_append]
      rw [if_neg (by simp), List.append_nil]
      cases convertedAny with
      | false => exact decides_error _ fun w h => absurd h.1 Bool.false_ne_true
      | true =>
          constructor
          · rintro w ⟨-, rfl, -⟩
            rfl
          · intro hnone
            exact absurd ⟨rfl, rfl, hbefore⟩ (hnone value)
  | cons c s =>
      have hc : c ≠ 0 := by
        rintro rfl
        exact hstr (List.mem_append_right _ List.mem_cons_self)
      dsimp only [List.cons_append]
      rw [if_pos hc]
      apply decides_error
      rintro w ⟨-, -, hwhite⟩
      exact hrest c s rfl (hwhite c (List.mem_append_right _ List.mem_cons_self))

theorem overflow_iff {base limit value d : Nat} (hd : d < base) :
    limit / base < value ∨ value = limit / base ∧ limit % base < d ↔ limit < value * base + d := by
  have hdiv := Nat.div_add_mod limit base
  have hmod : limit % base < base := Nat.mod_lt _ (by omega)
  rw [Nat.mul_comm] at hdiv
  constructor
  · rintro (hover | ⟨rfl, hover⟩)
    · have hmul := Nat.mul_le_mul_right base (Nat.succ_le_of_lt hover)
      rw [Nat.succ_mul] at hmul
      omega
    · omega
  · intro hover
    by_cases heq : value = limit / base
    · subst heq
      exact Or.inr ⟨rfl, by omega⟩
    · left
      by_contra hle
      have hmul : (value + 1) * base ≤ limit / base * base :=
        Nat.mul_le_mul_right base (by omega)
      rw [Nat.succ_mul] at hmul
      omega

/-- **The digits** of a base, up to the end of the string, give a number up to the limit. -/
theorem readNumber_spec {base : Nat} (hpos : 0 < base) (hbase : base ≤ 16) (limit : BitVec 64)
    (hstr : (0 : UInt8) ∉ str) (value : BitVec 64) (convertedAny : Bool)
    (hvalue : value.toNat ≤ limit.toNat) :
    Decides
      (fun w : BitVec 64 =>
        Reads base value.toNat convertedAny str w.toNat ∧ w.toNat ≤ limit.toNat)
      (readNumber base limit (str ++ [0]) value convertedAny) := by
  induction str generalizing value convertedAny with
  | nil =>
      have hend := @endOfString_spec [] hstr value convertedAny
      apply Decides.congr hend
      intro w
      rw [reads_nil, ← BitVec.toNat_inj]
      simp
      omega
  | cons c str ih =>
      have hc : c ≠ 0 := fun h => hstr (by rw [h]; exact List.mem_cons_self)
      have htail : (0 : UInt8) ∉ str := fun h => hstr (List.mem_cons_of_mem c h)
      unfold readNumber
      rw [List.cons_append]
      unfold convertDigits
      dsimp only
      rw [if_neg hc]
      by_cases hwhite : White c
      · -- White space ends the number.
        rw [if_pos (isspace_iff.mpr hwhite), Option.bind_some]
        apply Decides.congr (endOfString_spec hstr value convertedAny)
        intro w
        rw [reads_cons_white hwhite, ← BitVec.toNat_inj]
        constructor
        · rintro ⟨h, -⟩
          exact h
        · intro h
          exact ⟨h, by omega⟩
      rw [if_neg fun h => hwhite (isspace_iff.mp h)]
      cases hnumber : characterNumber c with
      | none =>
          apply decides_error
          rintro w ⟨hreads, -⟩
          apply not_reads_cons hwhite _ hreads
          intro d hd
          rw [digitOf_iff hbase, hnumber] at hd
          cases hd.1
      | some d =>
          dsimp only
          by_cases hd : base ≤ d
          · rw [if_pos hd]
            apply decides_error
            rintro w ⟨hreads, -⟩
            apply not_reads_cons hwhite _ hreads
            intro d' hd'
            rw [digitOf_iff hbase, hnumber] at hd'
            obtain ⟨hsame, hlt⟩ := hd'
            obtain rfl := Option.some.inj hsame
            omega
          rw [if_neg hd]
          have hdigit : DigitOf base c d := (digitOf_iff hbase).mpr ⟨hnumber, by omega⟩
          by_cases hover : limit.toNat < value.toNat * base + d
          · -- Whatever follows, the number is past the limit.
            rw [if_pos ((overflow_iff (by omega)).mpr hover)]
            apply decides_error
            rintro w ⟨hreads, hle⟩
            rw [reads_cons_digit hdigit] at hreads
            have hge := hreads.le hpos
            omega
          · rw [if_neg fun h => hover ((overflow_iff (by omega)).mp h)]
            have hnext : (value * BitVec.ofNat 64 base + BitVec.ofNat 64 d).toNat =
                value.toNat * base + d := by
              have hlimit := limit.isLt
              rw [BitVec.toNat_add, BitVec.toNat_mul, BitVec.toNat_ofNat, BitVec.toNat_ofNat,
                Nat.mod_eq_of_lt (show base < 2 ^ 64 by omega),
                Nat.mod_eq_of_lt (show d < 2 ^ 64 by omega),
                Nat.mod_eq_of_lt (show value.toNat * base < 2 ^ 64 by omega)]
              exact Nat.mod_eq_of_lt (by omega)
            apply Decides.congr (ih htail _ true (by rw [hnext]; omega))
            intro w
            rw [reads_cons_digit hdigit, hnext]

theorem detectBase_spec (hstr : (0 : UInt8) ∉ str) :
    ∃ base digits, detectBase (str ++ [0]) = some (base, digits ++ [0]) ∧ (0 : UInt8) ∉ digits ∧
      0 < base ∧ base ≤ 16 ∧ ∀ v, NumeralRest str v ↔ Reads base 0 false digits v := by
  cases str with
  | nil =>
      refine ⟨10, [], rfl, hstr, by omega, by omega, fun v => ?_⟩
      exact numeralRest_decimal fun c s h => by cases h
  | cons c s =>
      have htail : (0 : UInt8) ∉ s := fun h => hstr (List.mem_cons_of_mem c h)
      by_cases hzero : c = 48
      · subst hzero
        cases s with
        | nil =>
            refine ⟨8, [48], rfl, hstr, by omega, by omega, fun v => ?_⟩
            exact numeralRest_octal fun x s h => by cases h
        | cons x s =>
            rw [List.cons_append, List.cons_append]
            unfold detectBase
            dsimp only
            rw [if_pos rfl]
            by_cases hx : x = 120 ∨ x = 88
            · rw [if_pos hx]
              refine ⟨16, s, rfl, ?_, by omega, by omega, fun v => numeralRest_hexadecimal hx⟩
              exact fun h => htail (List.mem_cons_of_mem x h)
            · rw [if_neg hx]
              refine ⟨8, 48 :: x :: s, rfl, hstr, by omega, by omega, fun v => ?_⟩
              apply numeralRest_octal
              intro x' s' h
              obtain ⟨rfl, -⟩ := List.cons.inj h
              exact hx
      · refine ⟨10, c :: s, ?_, hstr, by omega, by omega, fun v => ?_⟩
        · rw [List.cons_append]
          exact if_neg hzero
        · apply numeralRest_decimal
          intro c' s' h
          obtain ⟨rfl, -⟩ := List.cons.inj h
          exact hzero

theorem readMagnitude_spec (negative : Bool) (limit : BitVec 64) (hstr : (0 : UInt8) ∉ str) :
    Decides
      (fun m => ∃ w : BitVec 64, NumeralRest str w.toNat ∧ w.toNat ≤ limit.toNat ∧
        m = if negative = true then -w else w)
      (readMagnitude negative limit (str ++ [0])) := by
  obtain ⟨base, digits, hbased, hdigits, hpos, hbase, hiff⟩ := detectBase_spec hstr
  obtain ⟨hgood, hbad⟩ := readNumber_spec hpos hbase limit hdigits 0 false (Nat.zero_le _)
  unfold readMagnitude
  rw [hbased, Option.bind_some]
  dsimp only
  constructor
  · rintro m ⟨w, hw, hle, rfl⟩
    rw [hgood w ⟨(hiff _).mp hw, hle⟩]
    rfl
  · intro hnone
    obtain ⟨e, he⟩ := hbad fun w h => hnone _ ⟨w, (hiff _).mpr h.1, h.2, rfl⟩
    rw [he]
    exact ⟨e, rfl⟩

theorem readSign_spec (negativeLimit : BitVec 64) (hstr : (0 : UInt8) ∉ str) :
    (∃ e, readSign negativeLimit (str ++ [0]) = some (.error e)) ∧ negativeLimit = 0 ∧
        (∀ negative v, SignedRest str negative v → negative = true) ∨
      ∃ sign rest, readSign negativeLimit (str ++ [0]) = some (.ok (sign, rest ++ [0])) ∧
        (0 : UInt8) ∉ rest ∧ (sign = true → negativeLimit ≠ 0) ∧
        ∀ negative v, SignedRest str negative v ↔ negative = sign ∧ NumeralRest rest v := by
  cases str with
  | nil =>
      refine Or.inr ⟨false, [], rfl, hstr, fun h => absurd h Bool.false_ne_true, fun _ _ => ?_⟩
      exact signedRest_of_no_sign fun c s h => by cases h
  | cons c s =>
      have htail : (0 : UInt8) ∉ s := fun h => hstr (List.mem_cons_of_mem c h)
      rw [List.cons_append]
      unfold readSign
      dsimp only
      by_cases hminus : c = 45
      · subst hminus
        rw [if_pos rfl]
        by_cases hlimit : negativeLimit = 0
        · rw [if_pos hlimit]
          refine Or.inl ⟨⟨_, rfl⟩, hlimit, fun negative v h => ?_⟩
          exact (signedRest_minus.mp h).1
        · rw [if_neg hlimit]
          exact Or.inr ⟨true, s, rfl, htail, fun _ => hlimit, fun _ _ => signedRest_minus⟩
      rw [if_neg hminus]
      by_cases hplus : c = 43
      · subst hplus
        rw [if_pos rfl]
        exact Or.inr ⟨false, s, rfl, htail, fun h => absurd h Bool.false_ne_true,
          fun _ _ => signedRest_plus⟩
      · rw [if_neg hplus]
        refine Or.inr ⟨false, c :: s, rfl, hstr, fun h => absurd h Bool.false_ne_true,
          fun _ _ => ?_⟩
        apply signedRest_of_no_sign
        intro c' s' h
        obtain ⟨rfl, -⟩ := List.cons.inj h
        exact ⟨hplus, hminus⟩

theorem spells_append_white {before rest : List UInt8} (hbefore : ∀ c ∈ before, White c)
    {negative : Bool} {v : Nat} :
    Spells (before ++ rest) negative v ↔ Spells rest negative v := by
  induction before with
  | nil => rfl
  | cons c before ih =>
      rw [List.cons_append, spells_cons_white (hbefore c List.mem_cons_self)]
      exact ih fun b hb => hbefore b (List.mem_cons_of_mem c hb)

def Accepts (negativeLimit positiveLimit : BitVec 64) (str : List UInt8) (m : BitVec 64) : Prop :=
  ∃ (negative : Bool) (w : BitVec 64), Spells str negative w.toNat ∧
    (negative = true → negativeLimit ≠ 0) ∧
    w.toNat ≤ (if negative = true then negativeLimit else positiveLimit).toNat ∧
    m = if negative = true then -w else w

theorem parseUint64Limit_spec (negativeLimit positiveLimit : BitVec 64)
    (hstr : (0 : UInt8) ∉ str) :
    Decides (Accepts negativeLimit positiveLimit str)
      (parseUint64Limit (str ++ [0]) negativeLimit positiveLimit) := by
  obtain ⟨before, rest, rfl, hbefore, hhead, hskip⟩ := skipSpaces_spec str
  have hrest : (0 : UInt8) ∉ rest := fun h => hstr (List.mem_append_right before h)
  have hspells : ∀ negative v, Spells (before ++ rest) negative v ↔ SignedRest rest negative v := by
    intro negative v
    rw [spells_append_white hbefore]
    exact spells_of_not_white hhead
  unfold parseUint64Limit
  rw [hskip, Option.bind_some]
  rcases readSign_spec negativeLimit hrest with
    ⟨⟨e, hsign⟩, hlimit, hminus⟩ | ⟨sign, digits, hsign, hdigits, hlimit, hiff⟩
  · -- A minus for an unsigned type.
    rw [hsign, Option.bind_some]
    apply decides_error
    rintro m ⟨negative, w, hw, hallowed, -⟩
    exact hallowed (hminus _ _ ((hspells _ _).mp hw)) hlimit
  · rw [hsign, Option.bind_some]
    apply Decides.congr (readMagnitude_spec sign _ hdigits)
    intro m
    constructor
    · rintro ⟨negative, w, hw, -, hle, rfl⟩
      obtain ⟨rfl, hnumeral⟩ := (hiff _ _).mp ((hspells _ _).mp hw)
      exact ⟨w, hnumeral, hle, rfl⟩
    · rintro ⟨w, hnumeral, hle, rfl⟩
      exact ⟨sign, w, (hspells _ _).mpr ((hiff _ _).mpr ⟨rfl, hnumeral⟩), hlimit, hle, rfl⟩

end Parts

/-! ## The ranges -/

section Ranges

variable {width : Nat} {minus : Bool} {lo hi : Int} {str : List UInt8}

/-- **The contract of a function**, on a string: if it denotes an integer from `lo` to `hi`, the
function returns true and stores this integer, and if not, it returns false and leaves the output as
it is.  The value of the output is read by `val`. -/
def Converts (minus : Bool) (lo hi : Int) (val : BitVec width → Int)
    (f : List UInt8 → BitVec width → Option (Bool × BitVec width)) (str : List UInt8) : Prop :=
  ∀ n,
    (∀ z, Denotes minus str z → lo ≤ z → z ≤ hi →
      ∃ m, f (str ++ [0]) n = some (true, m) ∧ val m = z) ∧
    ((∀ z, Denotes minus str z → ¬ (lo ≤ z ∧ z ≤ hi)) → f (str ++ [0]) n = some (false, n))

def unsignedValue (m : BitVec width) : Int := m.toNat

theorem tryStringToUint64Limit_of_decides {P : BitVec 64 → Prop}
    {negativeLimit positiveLimit : BitVec 64} {nptr : List UInt8}
    (h : Decides P (parseUint64Limit nptr negativeLimit positiveLimit)) (n : BitVec 64) :
    (∀ m, P m → tryStringToUint64Limit nptr negativeLimit positiveLimit n = some (true, m)) ∧
    ((∀ m, ¬ P m) →
      tryStringToUint64Limit nptr negativeLimit positiveLimit n = some (false, n)) := by
  unfold tryStringToUint64Limit
  constructor
  · intro m hm
    rw [h.1 m hm]
    rfl
  · intro hnone
    obtain ⟨e, he⟩ := h.2 hnone
    rw [he]
    rfl

theorem tryStringToUint64_converts (hstr : (0 : UInt8) ∉ str) :
    Converts false 0 18446744073709551615 unsignedValue tryStringToUint64 str := by
  intro n
  obtain ⟨hgood, hbad⟩ :=
    tryStringToUint64Limit_of_decides (parseUint64Limit_spec 0 18446744073709551615 hstr) n
  unfold tryStringToUint64
  constructor
  · rintro z ⟨negative, v, hspells, hminus, rfl⟩ - hle
    cases negative with
    | true => exact absurd (hminus rfl) Bool.false_ne_true
    | false =>
        rw [if_neg Bool.false_ne_true] at hle ⊢
        have hv : (BitVec.ofNat 64 v).toNat = v := by
          rw [BitVec.toNat_ofNat]
          exact Nat.mod_eq_of_lt (by omega)
        refine ⟨BitVec.ofNat 64 v, hgood _ ⟨false, BitVec.ofNat 64 v, ?_, ?_, ?_, rfl⟩, ?_⟩
        · rw [hv]
          exact hspells
        · intro h
          cases h
        · rw [hv]
          show v ≤ 18446744073709551615
          omega
        · unfold unsignedValue
          rw [hv]
  · intro hnone
    apply hbad
    rintro m ⟨negative, w, hspells, hminus, -, -⟩
    cases negative with
    | true => exact hminus rfl rfl
    | false =>
        have hw := w.isLt
        exact hnone _ ⟨false, _, hspells, id, rfl⟩ ⟨by simp, by simp; omega⟩

theorem toInt_of_magnitude (negative : Bool) {w : BitVec 64}
    (hw : w.toNat ≤ if negative = true then 9223372036854775808 else 9223372036854775807) :
    (if negative = true then -w else w).toInt =
      if negative = true then -(w.toNat : Int) else w.toNat := by
  cases negative with
  | false =>
      rw [if_neg Bool.false_ne_true] at hw ⊢
      rw [if_neg Bool.false_ne_true, BitVec.toInt_eq_toNat_cond, if_pos (by omega)]
  | true =>
      rw [if_pos rfl] at hw ⊢
      rw [if_pos rfl, BitVec.toInt_eq_toNat_cond, BitVec.toNat_neg]
      by_cases hzero : w.toNat = 0
      · rw [hzero]
        simp
      · rw [Nat.mod_eq_of_lt (by omega), if_neg (by omega)]
        omega

theorem tryStringToInt64_converts (hstr : (0 : UInt8) ∉ str) :
    Converts true (-9223372036854775808) 9223372036854775807 BitVec.toInt tryStringToInt64 str := by
  intro n
  obtain ⟨hgood, hbad⟩ := tryStringToUint64Limit_of_decides
    (parseUint64Limit_spec (9223372036854775807 + 1) 9223372036854775807 hstr) 0
  have hlimit : ∀ negative : Bool,
      (if negative = true then (9223372036854775807 + 1 : BitVec 64)
        else 9223372036854775807).toNat =
      if negative = true then 9223372036854775808 else 9223372036854775807 := by decide
  unfold tryStringToInt64
  constructor
  · rintro z ⟨negative, v, hspells, -, rfl⟩ hge hle
    have hv : v ≤ if negative = true then 9223372036854775808 else 9223372036854775807 := by
      cases negative with
      | false =>
          rw [if_neg Bool.false_ne_true] at hle ⊢
          omega
      | true =>
          rw [if_pos rfl] at hge ⊢
          omega
    have hnat : (BitVec.ofNat 64 v).toNat = v := by
      rw [BitVec.toNat_ofNat]
      apply Nat.mod_eq_of_lt
      split at hv <;> omega
    refine ⟨if negative = true then -BitVec.ofNat 64 v else BitVec.ofNat 64 v, ?_, ?_⟩
    · rw [hgood _ ⟨negative, BitVec.ofNat 64 v, by rw [hnat]; exact hspells, fun _ => by decide,
        by rw [hlimit, hnat]; exact hv, rfl⟩]
      rfl
    · rw [toInt_of_magnitude negative (by rw [hnat]; exact hv), hnat]
  · intro hnone
    rw [hbad]
    · rfl
    rintro m ⟨negative, w, hspells, -, hle, -⟩
    rw [hlimit] at hle
    apply hnone _ ⟨negative, _, hspells, fun _ => rfl, rfl⟩
    cases negative with
    | false =>
        rw [if_neg Bool.false_ne_true] at hle ⊢
        omega
    | true =>
        rw [if_pos rfl] at hle ⊢
        omega

/-- **A narrower function** accepts what is in its range of what the wider one accepts. -/
theorem Converts.narrow {lo' hi' : Int} {val : BitVec 64 → Int} {val' : BitVec width → Int}
    {f : List UInt8 → BitVec 64 → Option (Bool × BitVec 64)}
    {g : List UInt8 → BitVec width → Option (Bool × BitVec width)}
    (h : Converts minus lo hi val f str) (hlo : lo ≤ lo') (hhi : hi' ≤ hi)
    (hg : ∀ nptr n, g nptr n = (f nptr 0).map fun tmp =>
      if tmp.1 = false ∨ hi' < val tmp.2 ∨ val tmp.2 < lo' then (false, n)
      else (true, tmp.2.setWidth width))
    (hval : ∀ m, lo' ≤ val m → val m ≤ hi' → val' (m.setWidth width) = val m) :
    Converts minus lo' hi' val' g str := by
  intro n
  obtain ⟨hgood, hbad⟩ := h 0
  rw [hg]
  constructor
  · intro z hz hge hle
    obtain ⟨m, hf, rfl⟩ := hgood z hz (Int.le_trans hlo hge) (Int.le_trans hle hhi)
    refine ⟨m.setWidth width, ?_, hval m hge hle⟩
    rw [hf, Option.map_some, if_neg]
    rintro (hfalse | hout)
    · cases hfalse
    · dsimp only at hout
      omega
  · intro hnone
    by_cases hwide : ∃ z, Denotes minus str z ∧ lo ≤ z ∧ z ≤ hi
    · -- An integer for the wider type only.
      obtain ⟨z, hz, hge, hle⟩ := hwide
      obtain ⟨m, hf, rfl⟩ := hgood z hz hge hle
      have hout := hnone _ hz
      rw [hf, Option.map_some, if_pos]
      right
      dsimp only
      omega
    · rw [hbad fun z hz hin => hwide ⟨z, hz, hin⟩]
      rfl

theorem tryStringToUint_converts (hstr : (0 : UInt8) ∉ str) {max : Nat} (hmax : max < 2 ^ width)
    (hle : max ≤ 18446744073709551615) :
    Converts false 0 max unsignedValue (tryStringToUint width max) str := by
  apply (tryStringToUint64_converts hstr).narrow (Int.le_refl 0) (by omega)
  · intro nptr n
    unfold tryStringToUint unsignedValue
    congr 1
    funext tmp
    congr 1
    apply propext
    constructor
    · rintro (hfalse | hover)
      · exact Or.inl hfalse
      · exact Or.inr (Or.inl (Int.ofNat_lt.mpr hover))
    · rintro (hfalse | hover | hunder)
      · exact Or.inl hfalse
      · exact Or.inr (Int.ofNat_lt.mp hover)
      · omega
  · intro m _ hm
    unfold unsignedValue at hm ⊢
    rw [BitVec.toNat_setWidth, Nat.mod_eq_of_lt (by omega)]

theorem tryStringToInt_converts (hstr : (0 : UInt8) ∉ str) {max min : Int}
    (hmin : -((2 ^ width : Nat) : Int) ≤ 2 * min) (hmax : 2 * max < ((2 ^ width : Nat) : Int))
    (hwidth : width ≤ 64) (hlo : -9223372036854775808 ≤ min) (hhi : max ≤ 9223372036854775807) :
    Converts true min max BitVec.toInt (tryStringToInt width max min) str := by
  apply (tryStringToInt64_converts hstr).narrow hlo hhi
  · intro nptr n
    rfl
  · intro m hge hle
    rw [BitVec.toInt_setWidth, ← Int.bmod_bmod_of_dvd (Nat.pow_dvd_pow 2 hwidth),
      ← BitVec.toInt_eq_toNat_bmod]
    apply Int.bmod_eq_of_le_mul_two
    · omega
    · omega

/-- **The integer parser.**  Each function accepts a string exactly if it is a number in the
notation of the grammar with a value in the range of its type, and stores this value. -/
theorem try_string_to_integers (hstr : (0 : UInt8) ∉ str) :
    Converts false 0 18446744073709551615 unsignedValue tryStringToUint64 str ∧
    Converts false 0 4294967295 unsignedValue tryStringToUint32 str ∧
    Converts false 0 65535 unsignedValue tryStringToUint16 str ∧
    Converts false 0 255 unsignedValue tryStringToUint8 str ∧
    Converts true (-9223372036854775808) 9223372036854775807 BitVec.toInt tryStringToInt64 str ∧
    Converts true (-2147483648) 2147483647 BitVec.toInt tryStringToInt32 str ∧
    Converts true (-32768) 32767 BitVec.toInt tryStringToInt16 str ∧
    Converts true (-128) 127 BitVec.toInt tryStringToInt8 str := by
  refine ⟨tryStringToUint64_converts hstr, ?_, ?_, ?_, tryStringToInt64_converts hstr, ?_, ?_, ?_⟩
  · exact tryStringToUint_converts hstr (by decide) (by decide)
  · exact tryStringToUint_converts hstr (by decide) (by decide)
  · exact tryStringToUint_converts hstr (by decide) (by decide)
  · exact tryStringToInt_converts hstr (by decide) (by decide) (by decide) (by decide) (by decide)
  · exact tryStringToInt_converts hstr (by decide) (by decide) (by decide) (by decide) (by decide)
  · exact tryStringToInt_converts hstr (by decide) (by decide) (by decide) (by decide) (by decide)

/-- The theorem for `-0x1F` with white space on both sides. -/
theorem try_string_to_integers_hexadecimal :
    Converts false 0 255 unsignedValue tryStringToUint8 [32, 45, 48, 120, 49, 70, 9] ∧
    Converts true (-128) 127 BitVec.toInt tryStringToInt8 [32, 45, 48, 120, 49, 70, 9] := by
  obtain ⟨-, -, -, hunsigned, -, -, -, hsigned⟩ :=
    @try_string_to_integers [32, 45, 48, 120, 49, 70, 9] (by decide)
  exact ⟨hunsigned, hsigned⟩

end Ranges

end Util
end TreePass
