import Practise.JsonText

/-!
The JSON methods of go/json/chinese/main.go. `MarshalJSON` writes a string as a
Go literal in ASCII, `UnmarshalJSON` reads it as a JSON literal. A Go string is
the list of its runes here, which are Unicode scalar values, and a text is the
list of its characters. `strconv.QuoteToASCII`, `json.Unmarshal` and
`json.Marshal` are modelled as far as the program uses them.
-/
namespace Practise.ChineseJson
open JsonText

structure UnicodeString where
  uString : List Char
  deriving DecidableEq

structure JsonFile where
  data : UnicodeString
  deriving DecidableEq

/-! `strconv.QuoteToASCII`. -/

def lowerHex (digit : Nat) : Char := Char.ofNat (if digit < 10 then 48 + digit else 87 + digit)

def hexDigits : Nat → Nat → List Char
  | 0, _ => []
  | width + 1, number => hexDigits width (number / 16) ++ [lowerHex (number % 16)]

/-- Control characters with a letter of their own in Go literals. -/
def controlLetter (rune : Char) : Option Char :=
  match rune.toNat with
  | 7 => some 'a'
  | 8 => some 'b'
  | 12 => some 'f'
  | 10 => some 'n'
  | 13 => some 'r'
  | 9 => some 't'
  | 11 => some 'v'
  | _ => none

def quoteRune (rune : Char) : List Char :=
  if rune = '"' ∨ rune = '\\' then ['\\', rune]
  else if 32 ≤ rune.toNat ∧ rune.toNat < 127 then [rune]
  else
    match controlLetter rune with
    | some letter => ['\\', letter]
    | none =>
        if rune.toNat < 32 ∨ rune.toNat = 127 then '\\' :: 'x' :: hexDigits 2 rune.toNat
        else if rune.toNat < 65536 then '\\' :: 'u' :: hexDigits 4 rune.toNat
        else '\\' :: 'U' :: hexDigits 8 rune.toNat

def quoteToASCII (text : List Char) : List Char := '"' :: (text.flatMap quoteRune ++ ['"'])

/-! The methods. `MarshalJSON` never returns an error. -/

def UnicodeString.marshalJSON (u : UnicodeString) : List Char := quoteToASCII u.uString

/-- `json.Unmarshal` of a value into a string variable: null leaves it as it
is, and every other value that is no string is an error. -/
def storeString (before : List Char) : Json → Option (List Char)
  | .string text => some text
  | .null => some before
  | _ => none

def UnicodeString.unmarshalJSON (u : UnicodeString) (text : List Char) : Option UnicodeString :=
  (parse text).bind fun value => (storeString u.uString value).map UnicodeString.mk

/-! `json.Marshal` and `json.Unmarshal` of a `JsonFile`, as `main` calls them. -/

/-- In what a `MarshalJSON` method returns, `json.Marshal` writes these three
characters as code units. -/
def escapeHTML (text : List Char) : List Char :=
  text.flatMap fun char =>
    if char = '<' ∨ char = '>' ∨ char = '&' then '\\' :: 'u' :: hexDigits 4 char.toNat else [char]

/-- The result of `MarshalJSON` has to be a JSON value, and is inserted without
the white space around its tokens, of which a string literal has none. -/
def marshalFile (file : JsonFile) : Option (List Char) :=
  (parse file.data.marshalJSON).map fun _ =>
    ['\x7b', '"', 'd', 'a', 't', 'a', '"', ':'] ++ escapeHTML file.data.marshalJSON ++ ['\x7d']

/-- The key of the field, in any case. -/
def isDataKey (key : List Char) : Bool := key.map Char.toLower = ['d', 'a', 't', 'a']

/-- `UnmarshalJSON` is called with the text of the member's value; other members
are skipped. A repeated key stores again. -/
def unmarshalMember (file : JsonFile) (member : List Char × Json) : Option JsonFile :=
  if isDataKey member.1 then
    (storeString file.data.uString member.2).map fun text => ⟨⟨text⟩⟩
  else some file

def unmarshalFile (text : List Char) : Option JsonFile :=
  (parse text).bind fun value =>
    match value with
    | .null => some ⟨⟨[]⟩⟩
    | .object members => members.foldlM unmarshalMember ⟨⟨[]⟩⟩
    | _ => none

/-! Hexadecimal digits. -/

theorem hex_value_lower (digit : Nat) (small : digit < 16) :
    hexValue (lowerHex digit) = some digit ∧ (lowerHex digit).toNat < 128 := by
  revert digit
  decide

theorem hex_digits_four (number : Nat) :
    hexDigits 4 number = [lowerHex (number / 16 / 16 / 16 % 16), lowerHex (number / 16 / 16 % 16),
      lowerHex (number / 16 % 16), lowerHex (number % 16)] := rfl

theorem hex_unit_digits (number : Nat) (small : number < 65536) :
    hexUnit (lowerHex (number / 16 / 16 / 16 % 16)) (lowerHex (number / 16 / 16 % 16))
      (lowerHex (number / 16 % 16)) (lowerHex (number % 16)) = some number := by
  have digit : ∀ value, hexValue (lowerHex (value % 16)) = some (value % 16) := fun value =>
    (hex_value_lower (value % 16) (Nat.mod_lt value (by decide))).1
  simp only [hexUnit, digit, Option.bind_some, Option.map_some, Option.some.injEq]
  omega

theorem hex_digits_mem (width number : Nat) (char : Char) (member : char ∈ hexDigits width number) :
    ∃ digit, digit < 16 ∧ char = lowerHex digit := by
  induction width generalizing number with
  | zero => simp [hexDigits] at member
  | succ width ih =>
      rw [hexDigits, List.mem_append, List.mem_singleton] at member
      rcases member with before | last
      · exact ih (number / 16) before
      · exact ⟨number % 16, Nat.mod_lt number (by decide), last⟩

theorem hex_digits_ascii (width number : Nat) :
    ∀ char ∈ hexDigits width number, char.toNat < 128 := by
  intro char member
  obtain ⟨digit, small, rfl⟩ := hex_digits_mem width number char member
  exact (hex_value_lower digit small).2

/-! One rune. -/

/-- The characters that both escape languages can write alike. -/
def CommonRune (rune : Char) : Prop :=
  rune.toNat = 8 ∨ rune.toNat = 9 ∨ rune.toNat = 10 ∨ rune.toNat = 12 ∨ rune.toNat = 13 ∨
    (32 ≤ rune.toNat ∧ rune.toNat < 127) ∨ (128 ≤ rune.toNat ∧ rune.toNat < 65536)

instance (rune : Char) : Decidable (CommonRune rune) := inferInstanceAs (Decidable (_ ∨ _))

/-- How a rune is quoted, told by what the quotation is in JSON. -/
inductive Quoted (rune : Char) : List Char → Prop where
  | plain (noQuote : rune ≠ '"') (noEscape : rune ≠ '\\') (visible : 32 ≤ rune.toNat)
      (ascii : rune.toNat < 127) : Quoted rune [rune]
  | escape (letter : Char) (noUnit : letter ≠ 'u') (escapes : simpleEscape letter = some rune)
      (common : CommonRune rune) (ascii : rune.toNat < 127) (letterAscii : letter.toNat < 128) :
      Quoted rune ['\\', letter]
  | unit (above : 128 ≤ rune.toNat) (below : rune.toNat < 65536) :
      Quoted rune ('\\' :: 'u' :: hexDigits 4 rune.toNat)
  | foreign (letter : Char) (digits : List Char) (uncommon : ¬ CommonRune rune)
      (noUnit : letter ≠ 'u') (noEscape : simpleEscape letter = none)
      (letterAscii : letter.toNat < 128) (ascii : ∀ digit ∈ digits, digit.toNat < 128) :
      Quoted rune ('\\' :: letter :: digits)

theorem control_letter_quoted (rune letter : Char) (named : controlLetter rune = some letter) :
    Quoted rune ['\\', letter] := by
  have char : ∀ number, rune.toNat = number → rune = Char.ofNat number := by
    intro number same
    rw [← same, Char.ofNat_toNat]
  unfold controlLetter at named
  split at named <;> cases named
  · next number =>
      obtain rfl := char 7 number
      exact .foreign 'a' [] (by decide) (by decide) rfl (by decide) (by simp)
  · next number =>
      obtain rfl := char 8 number
      exact .escape 'b' (by decide) rfl (by decide) (by decide) (by decide)
  · next number =>
      obtain rfl := char 12 number
      exact .escape 'f' (by decide) rfl (by decide) (by decide) (by decide)
  · next number =>
      obtain rfl := char 10 number
      exact .escape 'n' (by decide) rfl (by decide) (by decide) (by decide)
  · next number =>
      obtain rfl := char 13 number
      exact .escape 'r' (by decide) rfl (by decide) (by decide) (by decide)
  · next number =>
      obtain rfl := char 9 number
      exact .escape 't' (by decide) rfl (by decide) (by decide) (by decide)
  · next number =>
      obtain rfl := char 11 number
      exact .foreign 'v' [] (by decide) (by decide) rfl (by decide) (by simp)

theorem control_letter_none (rune : Char) (unnamed : controlLetter rune = none) :
    rune.toNat ≠ 8 ∧ rune.toNat ≠ 9 ∧ rune.toNat ≠ 10 ∧ rune.toNat ≠ 12 ∧ rune.toNat ≠ 13 := by
  refine ⟨?_, ?_, ?_, ?_, ?_⟩
  all_goals
    intro number
    simp [controlLetter, number] at unnamed

theorem quote_rune (rune : Char) : Quoted rune (quoteRune rune) := by
  unfold quoteRune
  by_cases quoted : rune = '"' ∨ rune = '\\'
  · rw [if_pos quoted]
    rcases quoted with rfl | rfl
    · exact .escape _ (by decide) rfl (by decide) (by decide) (by decide)
    · exact .escape _ (by decide) rfl (by decide) (by decide) (by decide)
  · rw [if_neg quoted]
    obtain ⟨noQuote, noEscape⟩ := not_or.mp quoted
    by_cases visible : 32 ≤ rune.toNat ∧ rune.toNat < 127
    · rw [if_pos visible]
      exact .plain noQuote noEscape visible.1 visible.2
    · rw [if_neg visible]
      cases named : controlLetter rune with
      | some letter => exact control_letter_quoted rune letter named
      | none =>
          have others := control_letter_none rune named
          dsimp only
          by_cases control : rune.toNat < 32 ∨ rune.toNat = 127
          · rw [if_pos control]
            refine .foreign 'x' _ ?_ (by decide) rfl (by decide) (hex_digits_ascii 2 _)
            unfold CommonRune
            omega
          · rw [if_neg control]
            by_cases small : rune.toNat < 65536
            · rw [if_pos small]
              exact .unit (by omega) small
            · rw [if_neg small]
              refine .foreign 'U' _ ?_ (by decide) rfl (by decide) (hex_digits_ascii 8 _)
              unfold CommonRune
              omega

theorem quoted_ascii (rune : Char) (text : List Char) (quoted : Quoted rune text) :
    ∀ char ∈ text, char.toNat < 128 := by
  have backslash : ('\\' : Char).toNat < 128 := by decide
  cases quoted with
  | plain _ _ _ ascii =>
      intro char member
      rw [List.mem_singleton.mp member]
      omega
  | escape letter _ _ _ _ letterAscii => simp [letterAscii]
  | unit _ _ =>
      simp only [List.forall_mem_cons]
      exact ⟨backslash, by decide, hex_digits_ascii 4 _⟩
  | foreign letter digits _ _ _ letterAscii ascii =>
      simp only [List.forall_mem_cons]
      exact ⟨backslash, letterAscii, ascii⟩

theorem digits_read (rune : Char) (small : rune.toNat < 65536) :
    ReadsAs ('\\' :: 'u' :: hexDigits 4 rune.toNat) rune := by
  rw [hex_digits_four]
  exact unit_reads _ _ _ _ rune (hex_unit_digits rune.toNat small)

theorem quoted_common (rune : Char) (text : List Char) (quoted : Quoted rune text)
    (common : CommonRune rune) : ReadsAs text rune := by
  cases quoted with
  | plain noQuote noEscape visible _ => exact character_reads rune noQuote noEscape visible
  | escape letter noUnit escapes => exact escape_reads letter rune noUnit escapes
  | unit _ below => exact digits_read rune below
  | foreign _ _ uncommon => exact absurd common uncommon

/-- Every other rune is quoted with an escape that JSON does not have. -/
theorem quoted_uncommon (rune : Char) (text rest : List Char) (quoted : Quoted rune text)
    (uncommon : ¬ CommonRune rune) : scanItems (text ++ rest) = none := by
  cases quoted with
  | plain _ _ visible ascii =>
      exact absurd (by unfold CommonRune; omega) uncommon
  | escape _ _ _ common => exact absurd common uncommon
  | unit above below =>
      exact absurd (by unfold CommonRune; omega) uncommon
  | foreign letter digits _ noUnit noEscape =>
      rw [List.cons_append, List.cons_append, scan_escape letter _ noUnit, noEscape,
        Option.bind_none]

/-! Whole strings. -/

theorem scan_common (text rest : List Char) (common : ∀ rune ∈ text, CommonRune rune) :
    scanLiteral (text.flatMap quoteRune ++ '"' :: rest) = some (text, rest) := by
  apply scan_encoded
  intro rune member
  exact quoted_common rune _ (quote_rune rune) (common rune member)

theorem scan_uncommon (text rest : List Char) (uncommon : ¬ ∀ rune ∈ text, CommonRune rune) :
    scanItems (text.flatMap quoteRune ++ rest) = none := by
  induction text with
  | nil => exact absurd (by simp) uncommon
  | cons rune text ih =>
      rw [List.flatMap_cons, List.append_assoc]
      by_cases first : CommonRune rune
      · have later : ¬ ∀ rune ∈ text, CommonRune rune := fun all =>
          uncommon (List.forall_mem_cons.mpr ⟨first, all⟩)
        obtain ⟨item, scans, -⟩ := quoted_common rune _ (quote_rune rune) first
        rw [scans, ih later, Option.map_none]
      · exact quoted_uncommon rune _ _ (quote_rune rune) first

/-! What the quotation is to a JSON reader. -/

theorem parse_common (text : List Char) (common : ∀ rune ∈ text, CommonRune rune) :
    parse (quoteToASCII text) = some (.string text) := by
  rw [quoteToASCII, parse_literal, scan_common text [] common, Option.bind_some]
  rfl

theorem parse_uncommon (text : List Char) (uncommon : ¬ ∀ rune ∈ text, CommonRune rune) :
    parse (quoteToASCII text) = none := by
  rw [quoteToASCII, parse_literal, scanLiteral, scan_uncommon text _ uncommon, Option.map_none,
    Option.bind_none]

theorem quotation_literal_iff (text : List Char) :
    IsLiteral (quoteToASCII text) ↔ ∀ rune ∈ text, CommonRune rune := by
  constructor
  · rintro ⟨body, items, same, scanned⟩
    by_contra uncommon
    rw [← (List.cons.inj same).2, scan_uncommon text _ uncommon] at scanned
    exact absurd scanned (by simp)
  · intro common
    obtain ⟨⟨items, rest⟩, scanned, same⟩ :=
      Option.map_eq_some_iff.mp (scan_common text [] common)
    obtain ⟨-, rfl⟩ := Prod.mk.inj same
    exact ⟨_, items, rfl, scanned⟩

theorem quotation_ascii (text : List Char) : ∀ char ∈ quoteToASCII text, char.toNat < 128 := by
  intro char member
  rw [quoteToASCII, List.mem_cons, List.mem_append, List.mem_flatMap, List.mem_singleton] at member
  rcases member with rfl | ⟨rune, -, inside⟩ | rfl
  · decide
  · exact quoted_ascii rune _ (quote_rune rune) char inside
  · decide

theorem marshal_file_iff (file : JsonFile) :
    (marshalFile file).isSome ↔ ∀ rune ∈ file.data.uString, CommonRune rune := by
  rw [marshalFile, UnicodeString.marshalJSON, Option.isSome_map]
  constructor
  · intro encoded
    by_contra uncommon
    rw [parse_uncommon _ uncommon] at encoded
    exact absurd encoded (by simp)
  · intro common
    rw [parse_common _ common]
    rfl

/-! The file that `main` writes. -/

def isHTML (char : Char) : Prop := char = '<' ∨ char = '>' ∨ char = '&'

theorem escape_html_none (text : List Char) (none_ : ∀ char ∈ text, ¬ isHTML char) :
    escapeHTML text = text := by
  induction text with
  | nil => rfl
  | cons char text ih =>
      obtain ⟨first, later⟩ := List.forall_mem_cons.mp none_
      have here : ¬ (char = '<' ∨ char = '>' ∨ char = '&') := first
      rw [escapeHTML, List.flatMap_cons, if_neg here, List.singleton_append]
      exact congrArg (List.cons char) (ih later)

theorem hex_digits_no_html (width number : Nat) :
    ∀ char ∈ hexDigits width number, ¬ isHTML char := by
  have digits : ∀ digit, digit < 16 →
      ¬ (lowerHex digit = '<' ∨ lowerHex digit = '>' ∨ lowerHex digit = '&') := by decide
  intro char member
  obtain ⟨digit, small, rfl⟩ := hex_digits_mem width number char member
  exact digits digit small

/-- Only a rune that stands for itself can be one of the three characters. -/
theorem quoted_html (rune char : Char) (text : List Char) (quoted : Quoted rune text)
    (common : CommonRune rune) (member : char ∈ text) (special : isHTML char) :
    text = [rune] ∧ char = rune := by
  have backslash : ¬ isHTML '\\' := by
    unfold isHTML
    decide
  cases quoted with
  | plain => exact ⟨rfl, List.mem_singleton.mp member⟩
  | escape letter _ escapes =>
      rcases List.mem_cons.mp member with rfl | last
      · exact absurd special backslash
      · rw [← List.mem_singleton.mp last] at escapes
        rcases special with rfl | rfl | rfl
        · exact absurd escapes (by simp [simpleEscape])
        · exact absurd escapes (by simp [simpleEscape])
        · exact absurd escapes (by simp [simpleEscape])
  | unit =>
      rcases List.mem_cons.mp member with rfl | member
      · exact absurd special backslash
      · rcases List.mem_cons.mp member with rfl | digit
        · exact absurd special (by unfold isHTML; decide)
        · exact absurd special (hex_digits_no_html 4 _ char digit)
  | foreign _ _ uncommon => exact absurd common uncommon

theorem escaped_common (rune : Char) (text : List Char) (quoted : Quoted rune text)
    (common : CommonRune rune) : ReadsAs (escapeHTML text) rune := by
  by_cases html : ∃ char ∈ text, isHTML char
  · obtain ⟨char, member, special⟩ := html
    obtain ⟨rfl, rfl⟩ := quoted_html rune char text quoted common member special
    have here : char = '<' ∨ char = '>' ∨ char = '&' := special
    have small : char.toNat < 65536 := by
      rcases here with rfl | rfl | rfl <;> decide
    rw [escapeHTML, List.flatMap_singleton, if_pos here]
    exact digits_read char small
  · rw [escape_html_none text (fun char member special => html ⟨char, member, special⟩)]
    exact quoted_common rune text quoted common

theorem escape_html_quotation (text : List Char) :
    escapeHTML (quoteToASCII text) =
      '"' :: (text.flatMap (fun rune => escapeHTML (quoteRune rune)) ++ ['"']) := by
  rw [quoteToASCII, escapeHTML, List.flatMap_cons, List.flatMap_append, List.flatMap_assoc]
  rfl

theorem scan_data_key (rest : List Char) :
    scanLiteral ('d' :: 'a' :: 't' :: 'a' :: '"' :: rest) = some (['d', 'a', 't', 'a'], rest) := by
  have plain : ∀ char ∈ ['d', 'a', 't', 'a'], ReadsAs [char] char := by
    simp only [List.forall_mem_cons]
    refine ⟨?_, ?_, ?_, ?_, by simp⟩
    all_goals exact character_reads _ (by decide) (by decide) (by decide)
  exact scan_encoded (fun char => [char]) ['d', 'a', 't', 'a'] rest plain

/-- What `main` writes is read back as what it had read. -/
theorem marshal_file_read_back (file : JsonFile) (text : List Char)
    (encoded : marshalFile file = some text) : unmarshalFile text = some file := by
  have common : ∀ rune ∈ file.data.uString, CommonRune rune := by
    rw [← marshal_file_iff, encoded]
    rfl
  have value := scan_encoded (fun rune => escapeHTML (quoteRune rune)) file.data.uString ['\x7d']
    (fun rune member => escaped_common rune _ (quote_rune rune) (common rune member))
  have parsed := parse_member _ _ _ _ (scan_data_key _) value
  obtain ⟨_, -, rfl⟩ := Option.map_eq_some_iff.mp encoded
  rw [UnicodeString.marshalJSON, escape_html_quotation]
  simp only [List.cons_append, List.nil_append, List.append_assoc]
  rw [unmarshalFile, parsed]
  rfl

/-- A string survives the way through `MarshalJSON` and `UnmarshalJSON`, and a
document that has been decoded can be encoded again, exactly if all characters
of the string are common to both escape languages. -/
theorem unicode_string_round_trip_exact (text : List Char) :
    ((IsLiteral (UnicodeString.mk text).marshalJSON ∧
        (∀ char ∈ (UnicodeString.mk text).marshalJSON, char.toNat < 128) ∧
        ∀ before : UnicodeString,
          before.unmarshalJSON (UnicodeString.mk text).marshalJSON = some ⟨text⟩) ↔
      ∀ rune ∈ text, CommonRune rune) ∧
    ∀ document file, unmarshalFile document = some file →
      ((marshalFile file).isSome ↔ ∀ rune ∈ file.data.uString, CommonRune rune) := by
  refine ⟨⟨?_, ?_⟩, fun document file _ => marshal_file_iff file⟩
  · rintro ⟨literal, -⟩
    exact (quotation_literal_iff text).mp literal
  · intro common
    refine ⟨(quotation_literal_iff text).mpr common, quotation_ascii text, fun before => ?_⟩
    rw [UnicodeString.unmarshalJSON, UnicodeString.marshalJSON, parse_common text common]
    rfl

/-- The text of input.json. -/
def sampleInput : List Char :=
  ['\x7b', '\n', '\t', '"', 'd', 'a', 't', 'a', '"', ':', '"', 'a', 'b', 'c', ' ',
    '\\', 'u', '5', 'b', '8', '9', '\\', 'u', '5', '1', '6', '8', '\\', 'u', '5', '3', '6', 'b',
    '\\', 'u', '5', '8', 'e', 'b', '"', '\n', '\x7d', '\n']

theorem sample_input_encoded :
    unmarshalFile sampleInput = some ⟨⟨['a', 'b', 'c', ' ', '安', '全', '卫', '士']⟩⟩ ∧
      (marshalFile ⟨⟨['a', 'b', 'c', ' ', '安', '全', '卫', '士']⟩⟩).isSome := by
  have decoded : unmarshalFile sampleInput =
      some ⟨⟨['a', 'b', 'c', ' ', '安', '全', '卫', '士']⟩⟩ := by decide +kernel
  refine ⟨decoded, ((unicode_string_round_trip_exact []).2 _ _ decoded).mpr ?_⟩
  simp [CommonRune]

/-- The bell character is quoted as `\a`, which is no JSON; a document with it
is decoded, but cannot be encoded. -/
theorem bell_not_encoded :
    (UnicodeString.mk ['\x07']).marshalJSON = ['"', '\\', 'a', '"'] ∧
      (UnicodeString.mk []).unmarshalJSON (UnicodeString.mk ['\x07']).marshalJSON = none ∧
      unmarshalFile ['\x7b', '"', 'd', 'a', 't', 'a', '"', ':', '"', '\\', 'u', '0', '0', '0', '7',
        '"', '\x7d'] = some ⟨⟨['\x07']⟩⟩ ∧
      marshalFile ⟨⟨['\x07']⟩⟩ = none := by
  decide +kernel

end Practise.ChineseJson
