import Mathlib.Data.List.Basic

/-! Strings of a language like Go, which are byte strings: the bytes of a
literal, splitting at a byte, and decimal numbers. -/
namespace Practise.GoStrings

abbrev Text := List UInt8

def bytes (literal : String) : Text := literal.toList.flatMap String.utf8EncodeChar

/-- `strings.Split` for a separator of one byte. -/
def split (separator : UInt8) (text : Text) : List Text := text.splitOn separator

theorem split_second (separator : UInt8) (first rest : Text) (apart : separator ∉ first) :
    ∃ field, (split separator (first ++ separator :: rest))[1]? = some field := by
  rw [split, List.splitOn_append_cons_self_of_not_mem apart, List.getElem?_cons_succ]
  obtain ⟨field, fields, split⟩ := List.exists_cons_of_ne_nil (List.splitOn_ne_nil separator rest)
  exact ⟨field, by rw [split, List.getElem?_cons_zero]⟩

def digitValue (byte : UInt8) : Option Nat :=
  if 48 ≤ byte.toNat ∧ byte.toNat ≤ 57 then some (byte.toNat - 48) else none

/-- `strconv.ParseUint` in base 10, before its range check. -/
def parseDigits (text : Text) : Option Nat :=
  if text = [] then none
  else text.foldlM (fun value byte => (digitValue byte).map fun digit => value * 10 + digit) 0

/-- `strconv.ParseInt` in base 10. -/
def parseInt (bitSize : Nat) (text : Text) : Option Int :=
  let cutoff := 1 <<< (bitSize - 1)
  match text with
  | 45 :: digits => (parseDigits digits).bind fun value =>
      if value ≤ cutoff then some (-(value : Int)) else none
  | 43 :: digits => (parseDigits digits).bind fun value =>
      if value < cutoff then some (value : Int) else none
  | digits => (parseDigits digits).bind fun value =>
      if value < cutoff then some (value : Int) else none

/-! Decimal numbers. -/

def Decimal (text : Text) : Prop :=
  text ≠ [] ∧ ∀ byte ∈ text, 48 ≤ byte.toNat ∧ byte.toNat ≤ 57

def decimalValue (text : Text) : Nat :=
  text.foldl (fun value byte => value * 10 + (byte.toNat - 48)) 0

theorem parse_digits_from (text : Text) (start value : Nat) :
    text.foldlM (fun value byte => (digitValue byte).map fun digit => value * 10 + digit) start =
        some value ↔
      (∀ byte ∈ text, 48 ≤ byte.toNat ∧ byte.toNat ≤ 57) ∧
        text.foldl (fun value byte => value * 10 + (byte.toNat - 48)) start = value := by
  induction text generalizing start with
  | nil => simp
  | cons byte rest ih =>
      rw [List.foldlM_cons, List.foldl_cons, List.forall_mem_cons]
      by_cases digit : 48 ≤ byte.toNat ∧ byte.toNat ≤ 57
      · rw [digitValue, if_pos digit, Option.map_some]
        exact (ih (start * 10 + (byte.toNat - 48))).trans (by simp only [digit, and_self, true_and])
      · rw [digitValue, if_neg digit, Option.map_none]
        constructor
        · intro impossible
          exact absurd impossible (by simp)
        · rintro ⟨⟨first, -⟩, -⟩
          exact absurd first digit

theorem parse_digits_iff (text : Text) (value : Nat) :
    parseDigits text = some value ↔ Decimal text ∧ decimalValue text = value := by
  rw [parseDigits, Decimal]
  by_cases empty : text = []
  · simp [empty]
  · rw [if_neg empty, parse_digits_from]
    simp only [ne_eq, empty, not_false_eq_true, true_and]
    rfl

inductive Numeral : Text → Int → Prop where
  | unsigned (digits : Text) (decimal : Decimal digits) : Numeral digits (decimalValue digits)
  | plus (digits : Text) (decimal : Decimal digits) : Numeral (43 :: digits) (decimalValue digits)
  | minus (digits : Text) (decimal : Decimal digits) :
      Numeral (45 :: digits) (-(decimalValue digits : Int))

/-- The last part of each branch of `parseInt`. -/
theorem checked_digits_iff (digits : Text) (small : Nat → Prop) [DecidablePred small]
    (signed : Nat → Int) (number : Int) :
    ((parseDigits digits).bind fun value => if small value then some (signed value) else none) =
        some number ↔
      Decimal digits ∧ small (decimalValue digits) ∧ signed (decimalValue digits) = number := by
  rw [Option.bind_eq_some_iff]
  constructor
  · rintro ⟨value, parsed, inside⟩
    obtain ⟨decimal, rfl⟩ := (parse_digits_iff digits value).mp parsed
    split at inside
    · next holds => exact ⟨decimal, holds, Option.some.inj inside⟩
    · exact absurd inside (by simp)
  · rintro ⟨decimal, holds, same⟩
    exact ⟨_, (parse_digits_iff digits _).mpr ⟨decimal, rfl⟩, by rw [if_pos holds, same]⟩

/-- The text is a numeral, and its number is in the range of this many bits. -/
theorem parse_int_iff (bitSize : Nat) (text : Text) (number : Int) :
    parseInt bitSize text = some number ↔
      Numeral text number ∧ -((1 <<< (bitSize - 1) : Nat) : Int) ≤ number ∧
        number < ((1 <<< (bitSize - 1) : Nat) : Int) := by
  have positive : 0 < 1 <<< (bitSize - 1) := by
    rw [Nat.one_shiftLeft]
    exact Nat.two_pow_pos _
  generalize cutoff_eq : 1 <<< (bitSize - 1) = cutoff at positive
  constructor
  · intro parsed
    simp only [parseInt, cutoff_eq] at parsed
    split at parsed
    · next digits =>
      obtain ⟨decimal, small, rfl⟩ := (checked_digits_iff digits (· ≤ cutoff)
        (fun value => -(value : Int)) number).mp parsed
      exact ⟨.minus digits decimal, by omega, by omega⟩
    · next digits =>
      obtain ⟨decimal, small, rfl⟩ := (checked_digits_iff digits (· < cutoff)
        (fun value => (value : Int)) number).mp parsed
      exact ⟨.plus digits decimal, by omega, by omega⟩
    · obtain ⟨decimal, small, rfl⟩ := (checked_digits_iff text (· < cutoff)
        (fun value => (value : Int)) number).mp parsed
      exact ⟨.unsigned text decimal, by omega, by omega⟩
  · rintro ⟨numeral, low, high⟩
    simp only [parseInt, cutoff_eq]
    cases numeral with
    | minus digits decimal =>
        exact (checked_digits_iff digits (· ≤ cutoff) (fun value => -(value : Int)) _).mpr
          ⟨decimal, by omega, rfl⟩
    | plus digits decimal =>
        exact (checked_digits_iff digits (· < cutoff) (fun value => (value : Int)) _).mpr
          ⟨decimal, by omega, rfl⟩
    | unsigned _ decimal =>
        split
        -- A digit is no sign.
        · exact absurd (decimal.2 45 List.mem_cons_self).1 (by decide)
        · exact absurd (decimal.2 43 List.mem_cons_self).1 (by decide)
        · exact (checked_digits_iff _ (· < cutoff) (fun value => (value : Int)) _).mpr
            ⟨decimal, by omega, rfl⟩

theorem split_field (separator : UInt8) (first field tail : Text) (apart : separator ∉ first)
    (inside : separator ∉ field) (ends : tail = [] ∨ ∃ more, tail = separator :: more) :
    (split separator (first ++ separator :: (field ++ tail)))[1]? = some field := by
  rw [split, List.splitOn_append_cons_self_of_not_mem apart, List.getElem?_cons_succ]
  rcases ends with rfl | ⟨more, rfl⟩
  · rw [List.append_nil, List.splitOn_eq_singleton inside]
    rfl
  · rw [List.splitOn_append_cons_self_of_not_mem inside, List.getElem?_cons_zero]

theorem first_field (separator : UInt8) (text : Text) :
    ∃ field tail, text = field ++ tail ∧ separator ∉ field ∧
      (tail = [] ∨ ∃ more, tail = separator :: more) := by
  induction text with
  | nil => exact ⟨[], [], rfl, List.not_mem_nil, Or.inl rfl⟩
  | cons byte rest ih =>
      by_cases here : byte = separator
      · exact ⟨[], byte :: rest, rfl, List.not_mem_nil, Or.inr ⟨rest, by rw [here]⟩⟩
      · obtain ⟨field, tail, split, apart, ends⟩ := ih
        refine ⟨byte :: field, tail, by rw [split, List.cons_append], ?_, ends⟩
        rw [List.mem_cons, not_or]
        exact ⟨fun same => here same.symm, apart⟩

theorem numeral_colonless (text : Text) (number : Int) (numeral : Numeral text number) :
    58 ∉ text := by
  have digits : ∀ digits : Text, Decimal digits → 58 ∉ digits :=
    fun _ decimal member => absurd (decimal.2 58 member).2 (by decide)
  cases numeral with
  | unsigned _ decimal => exact digits text decimal
  | plus rest decimal =>
      rw [List.mem_cons, not_or]
      exact ⟨by decide, digits rest decimal⟩
  | minus rest decimal =>
      rw [List.mem_cons, not_or]
      exact ⟨by decide, digits rest decimal⟩

end Practise.GoStrings
