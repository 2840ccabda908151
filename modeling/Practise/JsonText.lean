import Mathlib.Data.List.Basic

/-!
JSON texts of RFC 8259 as lists of characters. Text that is no UTF-8 is to be
read with U+FFFD in its place before. A string literal is read in two steps:
into its items, which are characters and UTF-16 code units, and from these into
characters, where surrogates that do not form a pair become U+FFFD.
-/
namespace Practise.JsonText

/-! String literals. -/
section Strings

def hexValue (digit : Char) : Option Nat :=
  if 48 ≤ digit.toNat ∧ digit.toNat ≤ 57 then some (digit.toNat - 48)
  else if 97 ≤ digit.toNat ∧ digit.toNat ≤ 102 then some (digit.toNat - 87)
  else if 65 ≤ digit.toNat ∧ digit.toNat ≤ 70 then some (digit.toNat - 55)
  else none

def hexUnit (a b c d : Char) : Option Nat :=
  (hexValue a).bind fun a => (hexValue b).bind fun b => (hexValue c).bind fun c =>
    (hexValue d).map fun d => ((a * 16 + b) * 16 + c) * 16 + d

inductive Item where
  | character (value : Char)
  | unit (value : Nat)
  deriving DecidableEq

/-- The letters that may stand behind a backslash, apart from `u`. -/
def simpleEscape (letter : Char) : Option Char :=
  if letter = '"' ∨ letter = '\\' ∨ letter = '/' then some letter
  else if letter = 'b' then some '\x08'
  else if letter = 'f' then some '\x0c'
  else if letter = 'n' then some '\n'
  else if letter = 'r' then some '\r'
  else if letter = 't' then some '\t'
  else none

/-- The items of a literal and the text behind it, from behind its opening
quotation mark on. -/
def scanItems : List Char → Option (List Item × List Char)
  | [] => none
  | char :: rest =>
      if char = '"' then some ([], rest)
      else if char = '\\' then
        match rest with
        | [] => none
        | letter :: rest =>
            if letter = 'u' then
              match rest with
              | a :: b :: c :: d :: rest =>
                  (hexUnit a b c d).bind fun unit =>
                    (scanItems rest).map fun scanned => (.unit unit :: scanned.1, scanned.2)
              | _ => none
            else
              (simpleEscape letter).bind fun char =>
                (scanItems rest).map fun scanned => (.character char :: scanned.1, scanned.2)
      else if char.toNat < 32 then none
      else (scanItems rest).map fun scanned => (.character char :: scanned.1, scanned.2)

def highSurrogate (unit : Nat) : Prop := 0xd800 ≤ unit ∧ unit < 0xdc00

def lowSurrogate (unit : Nat) : Prop := 0xdc00 ≤ unit ∧ unit < 0xe000

instance (unit : Nat) : Decidable (highSurrogate unit) := inferInstanceAs (Decidable (_ ∧ _))

instance (unit : Nat) : Decidable (lowSurrogate unit) := inferInstanceAs (Decidable (_ ∧ _))

/-- The character of a code unit on its own. -/
def unitChar (unit : Nat) : Char :=
  if highSurrogate unit ∨ lowSurrogate unit then '\ufffd' else Char.ofNat unit

def joinItems : List Item → List Char
  | [] => []
  | .character char :: rest => char :: joinItems rest
  | .unit high :: .unit low :: rest =>
      if highSurrogate high ∧ lowSurrogate low then
        Char.ofNat (0x10000 + (high - 0xd800) * 0x400 + (low - 0xdc00)) :: joinItems rest
      else unitChar high :: joinItems (.unit low :: rest)
  | .unit unit :: rest => unitChar unit :: joinItems rest

def scanLiteral (text : List Char) : Option (List Char × List Char) :=
  (scanItems text).map fun scanned => (joinItems scanned.1, scanned.2)

def IsLiteral (text : List Char) : Prop :=
  ∃ body items, text = '"' :: body ∧ scanItems body = some (items, [])

/-! How the scan goes over one item. -/

theorem scan_end (rest : List Char) : scanItems ('"' :: rest) = some ([], rest) := by
  rw [scanItems.eq_def]
  rfl

theorem scan_character (char : Char) (rest : List Char) (noQuote : char ≠ '"')
    (noEscape : char ≠ '\\') (visible : 32 ≤ char.toNat) :
    scanItems (char :: rest) =
      (scanItems rest).map fun scanned => (.character char :: scanned.1, scanned.2) := by
  rw [scanItems.eq_def]
  dsimp only
  rw [if_neg noQuote, if_neg noEscape, if_neg (by omega)]

theorem scan_escape (letter : Char) (rest : List Char) (noUnit : letter ≠ 'u') :
    scanItems ('\\' :: letter :: rest) =
      (simpleEscape letter).bind fun char =>
        (scanItems rest).map fun scanned => (.character char :: scanned.1, scanned.2) := by
  rw [scanItems.eq_def]
  dsimp only
  rw [if_neg (by decide), if_pos rfl, if_neg noUnit]

theorem scan_unit (a b c d : Char) (rest : List Char) :
    scanItems ('\\' :: 'u' :: a :: b :: c :: d :: rest) =
      (hexUnit a b c d).bind fun unit =>
        (scanItems rest).map fun scanned => (.unit unit :: scanned.1, scanned.2) := by
  rw [scanItems.eq_def]
  dsimp only
  rw [if_neg (by decide), if_pos rfl, if_pos rfl]

theorem join_character (char : Char) (rest : List Item) :
    joinItems (.character char :: rest) = char :: joinItems rest := rfl

/-- Outside the surrogates a code unit is its character, whatever follows. -/
theorem join_unit (unit : Nat) (rest : List Item) (noHigh : ¬ highSurrogate unit)
    (noLow : ¬ lowSurrogate unit) :
    joinItems (.unit unit :: rest) = Char.ofNat unit :: joinItems rest := by
  have alone : unitChar unit = Char.ofNat unit := by
    rw [unitChar, if_neg (not_or.mpr ⟨noHigh, noLow⟩)]
  cases rest with
  | nil => simp only [joinItems, alone]
  | cons item rest =>
      cases item with
      | character char => simp only [joinItems, alone]
      | unit second => rw [joinItems, if_neg (fun pair => noHigh pair.1), alone]

/-- The text is read as this one character, whatever stands behind it. -/
def ReadsAs (text : List Char) (char : Char) : Prop :=
  ∃ item, (∀ rest, scanItems (text ++ rest) =
      (scanItems rest).map fun scanned => (item :: scanned.1, scanned.2)) ∧
    ∀ items, joinItems (item :: items) = char :: joinItems items

theorem character_reads (char : Char) (noQuote : char ≠ '"') (noEscape : char ≠ '\\')
    (visible : 32 ≤ char.toNat) : ReadsAs [char] char :=
  ⟨.character char, fun rest => scan_character char rest noQuote noEscape visible,
    join_character char⟩

theorem escape_reads (letter char : Char) (noUnit : letter ≠ 'u')
    (escapes : simpleEscape letter = some char) : ReadsAs ['\\', letter] char := by
  refine ⟨.character char, fun rest => ?_, join_character char⟩
  change scanItems ('\\' :: letter :: rest) = _
  rw [scan_escape letter rest noUnit, escapes, Option.bind_some]

/-- A character is no surrogate, so the code unit of one below 65536 stands for
itself. -/
theorem unit_reads (a b c d char : Char) (unit : hexUnit a b c d = some char.toNat) :
    ReadsAs ['\\', 'u', a, b, c, d] char := by
  refine ⟨.unit char.toNat, fun rest => ?_, fun items => ?_⟩
  · change scanItems ('\\' :: 'u' :: a :: b :: c :: d :: rest) = _
    rw [scan_unit, unit, Option.bind_some]
  · have valid : char.toNat < 0xd800 ∨ (0xdfff < char.toNat ∧ char.toNat < 0x110000) := char.valid
    have noSurrogate : ¬ highSurrogate char.toNat ∧ ¬ lowSurrogate char.toNat := by
      unfold highSurrogate lowSurrogate
      omega
    rw [join_unit _ _ noSurrogate.1 noSurrogate.2, Char.ofNat_toNat]

/-- An encoder that is right on every character of a text is right on the text. -/
theorem scan_encoded (encode : Char → List Char) (text rest : List Char)
    (reads : ∀ char ∈ text, ReadsAs (encode char) char) :
    scanLiteral (text.flatMap encode ++ '"' :: rest) = some (text, rest) := by
  induction text with
  | nil =>
      change scanLiteral ('"' :: rest) = _
      rw [scanLiteral, scan_end]
      rfl
  | cons char text ih =>
      obtain ⟨⟨item, scans, joins⟩, later⟩ := List.forall_mem_cons.mp reads
      obtain ⟨⟨items, behind⟩, scanned, same⟩ := Option.map_eq_some_iff.mp (ih later)
      obtain ⟨joined, rfl⟩ := Prod.mk.inj same
      rw [List.flatMap_cons, List.append_assoc, scanLiteral, scans, scanned, Option.map_some,
        Option.map_some, joins, joined]

end Strings

/-! Values. -/
section Values

inductive Json where
  | null
  | bool (value : Bool)
  | number (text : List Char)
  | string (value : List Char)
  | array (items : List Json)
  | object (members : List (List Char × Json))

def isSpace (char : Char) : Bool := char = ' ' ∨ char = '\t' ∨ char = '\n' ∨ char = '\r'

def skipSpace (text : List Char) : List Char := text.dropWhile isSpace

def isDigit (char : Char) : Bool := 48 ≤ char.toNat ∧ char.toNat ≤ 57

def scanDigits (text : List Char) : Option (List Char × List Char) :=
  if text.takeWhile isDigit = [] then none
  else some (text.takeWhile isDigit, text.dropWhile isDigit)

def accept (char : Char) : List Char → Option (List Char)
  | [] => none
  | first :: rest => if first = char then some rest else none

/-- No further digit may follow a leading zero. -/
def scanInteger (text : List Char) : Option (List Char) :=
  match accept '0' text with
  | some rest => some rest
  | none => (scanDigits text).map Prod.snd

def scanFraction (text : List Char) : Option (List Char) :=
  match accept '.' text with
  | none => some text
  | some rest => (scanDigits rest).map Prod.snd

def scanExponent (text : List Char) : Option (List Char) :=
  match (accept 'e' text).or (accept 'E' text) with
  | none => some text
  | some rest =>
      let unsigned := ((accept '+' rest).or (accept '-' rest)).getD rest
      (scanDigits unsigned).map Prod.snd

def scanNumber (text : List Char) : Option (List Char × List Char) :=
  (scanInteger ((accept '-' text).getD text)).bind fun rest =>
    (scanFraction rest).bind fun rest =>
      (scanExponent rest).map fun rest => (text.take (text.length - rest.length), rest)

def acceptAll : List Char → List Char → Option (List Char)
  | [], text => some text
  | char :: name, text => (accept char text).bind (acceptAll name)

def scanName (text : List Char) : Option (Json × List Char) :=
  ((acceptAll ['n', 'u', 'l', 'l'] text).map fun rest => (.null, rest)).or <|
    ((acceptAll ['t', 'r', 'u', 'e'] text).map fun rest => (.bool true, rest)).or <|
      (acceptAll ['f', 'a', 'l', 's', 'e'] text).map fun rest => (.bool false, rest)

mutual

/-- The value that the text starts with. Every character opens at most a value
and a list of them, which is what `fuel` counts. -/
def scanValue : Nat → List Char → Option (Json × List Char)
  | 0, _ => none
  | _ + 1, [] => none
  | fuel + 1, char :: rest =>
      if char = '"' then (scanLiteral rest).map fun scanned => (.string scanned.1, scanned.2)
      else if char = '\x7b' then
        match accept '\x7d' (skipSpace rest) with
        | some rest => some (.object [], rest)
        | none => (scanMembers fuel rest).map fun scanned => (.object scanned.1, scanned.2)
      else if char = '[' then
        match accept ']' (skipSpace rest) with
        | some rest => some (.array [], rest)
        | none => (scanElements fuel rest).map fun scanned => (.array scanned.1, scanned.2)
      else
        match scanName (char :: rest) with
        | some scanned => some scanned
        | none => (scanNumber (char :: rest)).map fun scanned => (.number scanned.1, scanned.2)

def scanElements : Nat → List Char → Option (List Json × List Char)
  | 0, _ => none
  | fuel + 1, text =>
      (scanValue fuel (skipSpace text)).bind fun value =>
        match accept ',' (skipSpace value.2) with
        | some rest => (scanElements fuel rest).map fun scanned => (value.1 :: scanned.1, scanned.2)
        | none => (accept ']' (skipSpace value.2)).map fun rest => ([value.1], rest)

def scanMembers : Nat → List Char → Option (List (List Char × Json) × List Char)
  | 0, _ => none
  | fuel + 1, text =>
      (accept '"' (skipSpace text)).bind fun text =>
        (scanLiteral text).bind fun key =>
          (accept ':' (skipSpace key.2)).bind fun text =>
            (scanValue fuel (skipSpace text)).bind fun value =>
              match accept ',' (skipSpace value.2) with
              | some rest =>
                  (scanMembers fuel rest).map fun scanned =>
                    ((key.1, value.1) :: scanned.1, scanned.2)
              | none =>
                  (accept '\x7d' (skipSpace value.2)).map fun rest => ([(key.1, value.1)], rest)

end

def parse (text : List Char) : Option Json :=
  (scanValue (2 * text.length) (skipSpace text)).bind fun value =>
    if skipSpace value.2 = [] then some value.1 else none

/-- A text that starts with a quotation mark is a document exactly if it is a
string literal with white space behind it. -/
theorem parse_literal (body : List Char) :
    parse ('"' :: body) =
      (scanLiteral body).bind fun scanned =>
        if skipSpace scanned.2 = [] then some (.string scanned.1) else none := by
  have noSpace : skipSpace ('"' :: body) = '"' :: body := by
    rw [skipSpace, List.dropWhile_cons_of_neg (by decide)]
  have fuel : 2 * ('"' :: body).length = (2 * body.length + 1) + 1 := by
    rw [List.length_cons]
    omega
  rw [parse, noSpace, fuel, scanValue, if_pos rfl, Option.bind_map]
  rfl

theorem parse_member (keyText key valueText value : List Char)
    (keyScanned : scanLiteral keyText = some (key, ':' :: '"' :: valueText))
    (valueScanned : scanLiteral valueText = some (value, ['\x7d'])) :
    parse ('\x7b' :: '"' :: keyText) = some (.object [(key, .string value)]) := by
  have noSpace : ∀ char text, isSpace char = false → skipSpace (char :: text) = char :: text := by
    intro char text visible
    rw [skipSpace, List.dropWhile_cons_of_neg (by simp [visible])]
  have same : ∀ char text, accept char (char :: text) = some text := by
    intro char text
    rw [accept, if_pos rfl]
  have differs : ∀ char other text, other ≠ char → accept char (other :: text) = none := by
    intro char other text different
    rw [accept, if_neg different]
  have fuel : 2 * ('\x7b' :: '"' :: keyText).length = (2 * keyText.length + 1) + 1 + 1 + 1 := by
    simp only [List.length_cons]
    omega
  have string : ∀ fuel, scanValue (fuel + 1) ('"' :: valueText) =
      some (.string value, ['\x7d']) := by
    intro fuel
    rw [scanValue, if_pos rfl, valueScanned, Option.map_some]
  have members : ∀ fuel, scanMembers (fuel + 1 + 1) ('"' :: keyText) =
      some ([(key, .string value)], []) := by
    intro fuel
    rw [scanMembers, noSpace '"' _ rfl, same, Option.bind_some, keyScanned, Option.bind_some,
      noSpace ':' _ rfl, same, Option.bind_some, noSpace '"' _ rfl, string, Option.bind_some]
    simp only [noSpace '\x7d' [] rfl, differs ',' '\x7d' [] (by decide), same, Option.map_some]
  rw [parse, noSpace '\x7b' _ rfl, fuel, scanValue, if_neg (by decide), if_pos rfl,
    noSpace '"' _ rfl, differs _ _ _ (by decide)]
  simp only [members, Option.map_some, Option.bind_some]
  rfl

end Values

end Practise.JsonText
