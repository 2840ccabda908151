import Practise.ChineseJson

/-!
`main` of go/json/chinese/main.go, which decodes input.json and encodes it again
into output.json. All documents for one string are written as the same text, in
ASCII and without the members that were skipped, so the program brings a document
into a canonical form.
-/
namespace Practise.ChineseJson
open JsonText

/-- A file that cannot be read is `none`. -/
structure Files where
  input : Option (List Char)
  output : Option (List Char)

inductive Ending where
  | finished
  | panicked
  deriving DecidableEq

structure Run where
  files : Files
  lines : List String
  ending : Ending

/-- `failed` is none if `WriteFile` succeeds, and else what it leaves in output.json. -/
def main (files : Files) (failed : Option (Option (List Char))) : Run :=
  match files.input with
  | none => ⟨files, [], .panicked⟩
  | some data =>
      match unmarshalFile data with
      | none => ⟨files, [], .panicked⟩
      | some jf =>
          match marshalFile jf with
          | none => ⟨files, ["unmarshal success"], .panicked⟩
          | some data =>
              match failed with
              | some left =>
                  ⟨{ files with output := left }, ["unmarshal success", "marshal success"],
                    .panicked⟩
              | none =>
                  ⟨{ files with output := some data },
                    ["unmarshal success", "marshal success", "write file success"], .finished⟩

/-- What has been read, decoded and encoded when the program comes to its end. -/
structure Rewrites (files : Files) (document : List Char) (file : JsonFile) (text : List Char) :
    Prop where
  read : files.input = some document
  decoded : unmarshalFile document = some file
  encoded : marshalFile file = some text

theorem main_rewrites (files : Files) (document text : List Char) (file : JsonFile)
    (rewrites : Rewrites files document file text) :
    (main files none).ending = .finished ∧
      (main files none).files = { files with output := some text } := by
  simp only [main, rewrites.read, rewrites.decoded, rewrites.encoded, and_self]

theorem main_cases (files : Files) :
    (∃ document file text, Rewrites files document file text) ∨
      ((main files none).ending = .panicked ∧ (main files none).files = files ∧
        ∀ document file, files.input = some document → unmarshalFile document = some file →
          marshalFile file = none) := by
  cases read : files.input with
  | none =>
      right
      simp [main, read]
  | some document =>
      cases decoded : unmarshalFile document with
      | none =>
          right
          refine ⟨by simp [main, read, decoded], by simp [main, read, decoded], ?_⟩
          rintro _ file ⟨⟩ impossible
          exact absurd (decoded.symm.trans impossible) (by simp)
      | some file =>
          cases encoded : marshalFile file with
          | none =>
              right
              refine ⟨by simp [main, read, decoded, encoded],
                by simp [main, read, decoded, encoded], ?_⟩
              rintro _ other ⟨⟩ again
              rw [← Option.some.inj (decoded.symm.trans again), encoded]
          | some text => exact Or.inl ⟨document, file, text, read, decoded, encoded⟩

theorem escape_html_ascii (text : List Char) (ascii : ∀ char ∈ text, char.toNat < 128) :
    ∀ char ∈ escapeHTML text, char.toNat < 128 := by
  intro char member
  obtain ⟨original, inside, written⟩ := List.mem_flatMap.mp member
  split at written
  · rcases List.mem_cons.mp written with rfl | later
    · decide
    · rcases List.mem_cons.mp later with rfl | digit
      · decide
      · exact hex_digits_ascii 4 _ char digit
  · rw [List.mem_singleton.mp written]
    exact ascii original inside

theorem marshal_file_ascii (file : JsonFile) (text : List Char)
    (encoded : marshalFile file = some text) : ∀ char ∈ text, char.toNat < 128 := by
  obtain ⟨_, -, rfl⟩ := Option.map_eq_some_iff.mp encoded
  intro char member
  rw [List.mem_append, List.mem_append] at member
  rcases member with (key | value) | brace
  · simp only [List.mem_cons, List.not_mem_nil, or_false] at key
    rcases key with rfl | rfl | rfl | rfl | rfl | rfl | rfl | rfl <;> decide
  · exact escape_html_ascii _ (quotation_ascii file.data.uString) char value
  · rw [List.mem_singleton.mp brace]
    decide

/-- The program finishes exactly on documents whose string has common characters
only, and else leaves output.json alone. What it writes is ASCII, is decoded to
the same string, is not changed by a second run, and is written for exactly the
documents with this string. -/
theorem rewritten_file_canonical (files : Files) :
    ((main files none).ending = .finished ↔
      ∃ document file, files.input = some document ∧ unmarshalFile document = some file ∧
        ∀ rune ∈ file.data.uString, CommonRune rune) ∧
    ((main files none).ending = .panicked → (main files none).files = files) ∧
    ((main files none).ending = .finished → ∃ text,
      (main files none).files = { files with output := some text } ∧
      (∀ char ∈ text, char.toNat < 128) ∧
      unmarshalFile text = files.input.bind unmarshalFile ∧
      (∀ output, (main ⟨some text, output⟩ none).files.output = some text) ∧
      ∀ other, (main other none).ending = .finished →
        ((main other none).files.output = some text ↔
          other.input.bind unmarshalFile = files.input.bind unmarshalFile)) := by
  rcases main_cases files with ⟨document, file, text, rewrites⟩ | ⟨panics, unchanged, fails⟩
  · obtain ⟨finishes, written⟩ := main_rewrites files document text file rewrites
    have readBack := marshal_file_read_back file text rewrites.encoded
    have same : files.input.bind unmarshalFile = some file := by
      rw [rewrites.read, Option.bind_some, rewrites.decoded]
    refine ⟨iff_of_true finishes ⟨document, file, rewrites.read, rewrites.decoded, ?_⟩,
      fun panics => absurd (finishes.symm.trans panics) (by decide), fun _ => ⟨text, written,
      marshal_file_ascii file text rewrites.encoded, readBack.trans same.symm, ?_, ?_⟩⟩
    · rw [← marshal_file_iff, rewrites.encoded]
      rfl
    · intro output
      rw [(main_rewrites ⟨some text, output⟩ text text file ⟨rfl, readBack, rewrites.encoded⟩).2]
    · intro other ends
      rcases main_cases other with ⟨second, decoded, again, also⟩ | ⟨panics, -⟩
      · rw [(main_rewrites other second again decoded also).2, same, also.read, Option.bind_some,
          also.decoded]
        constructor
        · intro equal
          rw [← readBack, ← Option.some.inj equal]
          exact (marshal_file_read_back decoded again also.encoded).symm
        · intro equal
          rw [← also.encoded, Option.some.inj equal, rewrites.encoded]
      · exact absurd (ends.symm.trans panics) (by decide)
  · refine ⟨iff_of_false (by simp [panics]) ?_, fun _ => unchanged,
      fun finishes => absurd (panics.symm.trans finishes) (by decide)⟩
    rintro ⟨document, file, read, decoded, common⟩
    have encoded := (marshal_file_iff file).mpr common
    rw [fails document file read decoded] at encoded
    exact absurd encoded (by decide)

end Practise.ChineseJson
