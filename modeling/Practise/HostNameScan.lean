import Practise.ConfinedHostNames

/-!
What `extractHostNames` and `main` of go/regexp/main.go do to any text, without
the regular expression: a scan from left to right that stops at each place where
a URL starts, takes the URL, and goes on behind it. The search of the regexp
package follows this scan, so it can be done piece by piece if no URL is cut.
-/
namespace Practise.ExtractHostNames
open GoStrings Regexp

def StartsUrl (text : Text) : Prop := ∃ url rest, text = Url.text url ++ rest

inductive Scans : Text → List Url → Prop where
  | done (text : Text) (none : ∀ before after, text = before ++ after → ¬ StartsUrl after) :
      Scans text []
  | found (skipped : Text) (url : Url) (rest : Text) (urls : List Url)
      (leftmost : ∀ first second, skipped = first ++ second → second ≠ [] →
        ¬ StartsUrl (second ++ (url.text ++ rest)))
      (later : Scans rest urls) : Scans (skipped ++ (url.text ++ rest)) (url :: urls)

theorem ways_nil_iff (text : Text) : hostPattern.ways text = [] ↔ ¬ StartsUrl text := by
  constructor
  · rintro none ⟨url, rest, rfl⟩
    rw [url_found url rest] at none
    exact List.cons_ne_nil _ _ none
  · intro absent
    exact no_url_no_way text fun url rest same => absent ⟨url, rest, same⟩

theorem every_text_scans (text : Text) : ∃ urls, Scans text urls := by
  induction size_eq : text.length using Nat.strong_induction_on generalizing text with
  | _ size ih =>
      rcases find_cases hostPattern text with
        nowhere | ⟨skipped, after, one, more, rfl, here, first⟩
      · refine ⟨[], .done text fun before after split => ?_⟩
        exact (ways_nil_iff after).mp (nowhere before after split)
      · obtain ⟨url, rest, rfl⟩ := way_is_url after one (by rw [here]; exact List.mem_cons_self)
        have shorter := rest_shorter skipped rest url
        obtain ⟨urls, later⟩ := ih rest.length (by omega) rest rfl
        refine ⟨url :: urls,
          .found skipped url rest urls (fun before second split nonempty => ?_) later⟩
        exact (ways_nil_iff _).mp (first before second split nonempty)

/-! The search follows the scan. -/

/-- The texts of `one` in `main`: the match and its two groups. -/
def submatches (one : Match UInt8) : List Text :=
  [one.taken, one.submatch 1, one.submatch 2]

def Url.parts (url : Url) : List Text :=
  [url.text, url.protocol.name, url.host]

theorem scan_followed (text : Text) (urls : List Url) (scans : Scans text urls) (fuel : Nat)
    (ended : Bool) (enough : text.length < fuel) :
    (findAllFrom hostPattern fuel ended text).map submatches = urls.map Url.parts := by
  induction scans generalizing fuel ended with
  | done text none =>
      rw [find_all_none, List.map_nil, List.map_nil]
      exact find_none hostPattern text fun before after split =>
        (ways_nil_iff after).mpr (none before after split)
  | found skipped url rest urls leftmost later ih =>
      obtain ⟨fuel, rfl⟩ := Nat.exists_eq_add_one_of_ne_zero (Nat.ne_zero_of_lt enough)
      have shorter := rest_shorter skipped rest url
      have first := find_first hostPattern skipped _ _ _ (url_found url rest)
        fun before second split nonempty =>
          (ways_nil_iff _).mpr (leftmost before second split nonempty)
      rw [find_all_some hostPattern fuel ended _ skipped _ first (url_text_ne_nil url),
        List.map_cons, ih fuel true (by omega), List.map_cons]
      rfl

theorem find_all_scanned (text : Text) (urls : List Url) (scans : Scans text urls) :
    (findAll hostPattern text).map submatches = urls.map Url.parts :=
  scan_followed text urls scans _ false (Nat.lt_succ_self _)

theorem scanned_hosts (text : Text) (urls : List Url) (scans : Scans text urls) :
    extractHostNames text = urls.map Url.host := by
  have hosts := congrArg (List.map fun parts => parts.getD 2 []) (find_all_scanned text urls scans)
  rw [List.map_map, List.map_map] at hosts
  exact hosts

theorem parts_injective : Function.Injective Url.parts := by
  rintro ⟨one, host, nonempty, slashless⟩ ⟨two, other, _, _⟩ same
  simp only [Url.parts, List.cons.injEq, and_true] at same
  obtain ⟨-, names, rfl⟩ := same
  have protocols : one = two := by
    cases one with
    | http =>
        cases two with
        | http => rfl
        | https => exact absurd names (by decide)
    | https =>
        cases two with
        | http => exact absurd names (by decide)
        | https => rfl
  rw [protocols]

theorem scan_unique (text : Text) (urls others : List Url) (scans : Scans text urls)
    (again : Scans text others) : others = urls := by
  apply parts_injective.list_map
  rw [← find_all_scanned text urls scans, ← find_all_scanned text others again]

/-! `main` -/

def newline : Text := [10]

/-- What `main` prints for its text `s`. -/
def mainOutput (s : Text) : Text :=
  ((findAll hostPattern s).flatMap fun one => one.taken ++ newline) ++
    ((findAll hostPattern s).flatMap fun one =>
      newline ++ (submatches one).zipIdx.flatMap fun part =>
        bytes (toString part.2) ++ bytes ": " ++ part.1 ++ newline) ++
    bytes "extract host names" ++ newline ++
    (extractHostNames s).flatMap fun hostname => hostname ++ newline

def Url.listing (url : Url) : Text :=
  newline ++ bytes "0: " ++ url.text ++ newline ++ bytes "1: " ++ url.protocol.name ++ newline ++
    bytes "2: " ++ url.host ++ newline

/-- The three passes of `main` over its matches see the URLs of the scan. -/
theorem main_output_scanned (s : Text) (urls : List Url) (scans : Scans s urls) :
    mainOutput s =
      (urls.flatMap fun url => url.text ++ newline) ++ urls.flatMap Url.listing ++
        bytes "extract host names" ++ newline ++
        urls.flatMap fun url => url.host ++ newline := by
  have matched := find_all_scanned s urls scans
  have whole : (findAll hostPattern s).flatMap (fun one => one.taken ++ newline) =
      urls.flatMap fun url => url.text ++ newline := by
    have same := congrArg (List.flatMap fun parts => parts.getD 0 [] ++ newline) matched
    rw [List.flatMap_map, List.flatMap_map] at same
    exact same
  have listed : ((findAll hostPattern s).flatMap fun one =>
      newline ++ (submatches one).zipIdx.flatMap fun part =>
        bytes (toString part.2) ++ bytes ": " ++ part.1 ++ newline) =
      urls.flatMap Url.listing := by
    have same := congrArg (List.flatMap fun parts =>
      newline ++ parts.zipIdx.flatMap fun part =>
        bytes (toString part.2) ++ bytes ": " ++ part.1 ++ newline) matched
    rw [List.flatMap_map, List.flatMap_map] at same
    refine same.trans (List.flatMap_congr fun url _ => ?_)
    have digits : bytes (toString 0) ++ bytes ": " = bytes "0: " ∧
        bytes (toString 1) ++ bytes ": " = bytes "1: " ∧
        bytes (toString 2) ++ bytes ": " = bytes "2: " := by decide +kernel
    simp [Url.parts, Url.listing, ← digits.1, ← digits.2.1, ← digits.2.2]
  rw [mainOutput, whole, listed, scanned_hosts s urls scans, List.flatMap_map]

/-- Every text has exactly one scan, and the program returns and prints what this
scan finds. -/
theorem every_text_scanned (text : Text) :
    ∃ urls, Scans text urls ∧ (∀ others, Scans text others → others = urls) ∧
      extractHostNames text = urls.map Url.host ∧
      mainOutput text =
        (urls.flatMap fun url => url.text ++ newline) ++ urls.flatMap Url.listing ++
          bytes "extract host names" ++ newline ++
          urls.flatMap fun url => url.host ++ newline := by
  obtain ⟨urls, scans⟩ := every_text_scans text
  exact ⟨urls, scans, fun others again => scan_unique text urls others scans again,
    scanned_hosts text urls scans, main_output_scanned text urls scans⟩

/-! Texts in pieces. -/

/-- No URL starts in the left piece and ends in the right one. -/
def Apart (left right : Text) : Prop :=
  ∀ first second more rest, left = first ++ second → second ≠ [] → right = more ++ rest →
    more ≠ [] → ∀ url, Url.text url ≠ second ++ more

theorem starts_apart (left right first second : Text) (apart : Apart left right)
    (split : left = first ++ second) (nonempty : second ≠ []) :
    StartsUrl (second ++ right) → StartsUrl second := by
  rintro ⟨url, rest, same⟩
  rcases List.append_eq_append_iff.mp same with ⟨more, longer, follows⟩ | ⟨more, shorter, -⟩
  · by_cases ends : more = []
    · exact ⟨url, [], by rw [longer, ends, List.append_nil, List.append_nil]⟩
    · exact absurd longer (apart first second more rest split nonempty follows ends url)
  · exact ⟨url, more, shorter⟩

theorem scan_behind (left right : Text) (urls : List Url)
    (none : ∀ first second, left = first ++ second → second ≠ [] → ¬ StartsUrl (second ++ right))
    (scans : Scans right urls) : Scans (left ++ right) urls := by
  cases scans with
  | done text nowhere =>
      refine .done _ fun before after split => ?_
      rcases List.append_eq_append_iff.mp split with ⟨more, -, follows⟩ | ⟨second, here, rfl⟩
      · exact nowhere more after follows
      · by_cases ends : second = []
        · rw [ends, List.nil_append]
          exact nowhere [] right rfl
        · exact none before second here ends
  | found skipped url rest urls leftmost later =>
      rw [← List.append_assoc]
      refine .found (left ++ skipped) url rest urls (fun first second split nonempty => ?_) later
      rcases List.append_eq_append_iff.mp split with ⟨more, -, follows⟩ | ⟨more, here, rfl⟩
      · exact leftmost more second follows nonempty
      · by_cases ends : more = []
        · rw [ends, List.nil_append] at nonempty ⊢
          exact leftmost [] skipped rfl nonempty
        · rw [List.append_assoc]
          exact none first more here ends

theorem scan_append (left right : Text) (urls others : List Url) (apart : Apart left right)
    (scans : Scans left urls) (later : Scans right others) :
    Scans (left ++ right) (urls ++ others) := by
  induction scans with
  | done text none =>
      refine scan_behind text right others (fun first second split nonempty starts => ?_) later
      exact none first second split
        (starts_apart text right first second apart split nonempty starts)
  | found skipped url rest urls leftmost _ ih =>
      have inner : Apart rest right := fun first second more behind split =>
        apart (skipped ++ (url.text ++ first)) second more behind (by simp [split])
      rw [List.append_assoc, List.append_assoc]
      refine .found skipped url _ _ (fun first second split nonempty starts => ?_) (ih inner)
      refine leftmost first second split nonempty ?_
      refine starts_apart _ right first _ apart (by simp [split]) (by simp [nonempty]) ?_
      simpa using starts

/-- The piece ends with a slash that is none of the two slashes of a scheme. -/
def EndsPath (piece : Text) : Prop :=
  ∃ front, piece = front ++ [slash] ∧
    ∀ protocol : Protocol, ¬ protocol.opening <:+ front ∧ ¬ protocol.opening ++ [slash] <:+ front

theorem path_apart (left right : Text) (path : EndsPath left) : Apart left right := by
  obtain ⟨front, rfl, schemeless⟩ := path
  intro first second more rest split nonempty _ further url whole
  obtain ⟨inner, last, rfl⟩ := (List.eq_nil_or_concat second).resolve_left nonempty
  rw [List.concat_eq_append, ← List.append_assoc] at split
  obtain ⟨rfl, same⟩ := List.append_inj' split rfl
  obtain ⟨opens, slashes⟩ := schemeless url.protocol
  have cut : url.protocol.opening ++ slash :: (slash :: (url.host ++ [slash])) =
      inner ++ slash :: more := by
    rw [List.concat_eq_append, ← same] at whole
    simpa [Url.text, scheme_opening] using whole
  -- The last slash of the piece is one of the URL's three, and not the third.
  rcases cut_first _ _ _ _ (opening_slashless url.protocol) cut with
    ⟨rfl, -⟩ | ⟨second, rfl, behind⟩
  · exact opens (List.suffix_append _ _)
  rcases cut_first [] second _ _ List.not_mem_nil behind with ⟨rfl, -⟩ | ⟨third, rfl, host⟩
  · exact slashes (List.suffix_append _ _)
  rcases cut_first _ _ _ _ url.slashless host with ⟨-, ends⟩ | ⟨other, -, impossible⟩
  · exact further ends.symm
  · exact absurd impossible.symm (by simp)

/-- A text that is cut behind such slashes can be searched piece by piece. -/
theorem pieces_extracted (pieces : List Text) (last : Text)
    (paths : ∀ piece ∈ pieces, EndsPath piece) :
    extractHostNames (pieces.flatten ++ last) =
      pieces.flatMap extractHostNames ++ extractHostNames last := by
  induction pieces with
  | nil => rfl
  | cons piece pieces ih =>
      obtain ⟨urls, scans⟩ := every_text_scans piece
      obtain ⟨others, later⟩ := every_text_scans (pieces.flatten ++ last)
      have joined := scan_append piece (pieces.flatten ++ last) urls others
        (path_apart piece _ (paths piece List.mem_cons_self)) scans later
      have behind := ih fun other member => paths other (List.mem_cons_of_mem piece member)
      calc extractHostNames ((piece :: pieces).flatten ++ last)
        _ = extractHostNames (piece ++ (pieces.flatten ++ last)) := by
            rw [List.flatten_cons, List.append_assoc]
        _ = urls.map Url.host ++ others.map Url.host := by
            rw [scanned_hosts _ _ joined, List.map_append]
        _ = extractHostNames piece ++
              (pieces.flatMap extractHostNames ++ extractHostNames last) := by
            rw [← scanned_hosts _ _ scans, ← scanned_hosts _ _ later, behind]
        _ = (piece :: pieces).flatMap extractHostNames ++ extractHostNames last := by
            rw [List.flatMap_cons, List.append_assoc]

theorem sample_in_pieces :
    extractHostNames (bytes "pfdafaf http://www.com/fd/" ++
        bytes "fdafaf;fads http://abc.com/fda; https://qq.com/fdafafd") =
      extractHostNames (bytes "pfdafaf http://www.com/fd/") ++
        extractHostNames (bytes "fdafaf;fads http://abc.com/fda; https://qq.com/fdafafd") := by
  have path : EndsPath (bytes "pfdafaf http://www.com/fd/") := by
    refine ⟨bytes "pfdafaf http://www.com/fd", by decide +kernel, fun protocol => ?_⟩
    cases protocol with
    | http => exact by decide +kernel
    | https => exact by decide +kernel
  have pieces := pieces_extracted [bytes "pfdafaf http://www.com/fd/"]
    (bytes "fdafaf;fads http://abc.com/fda; https://qq.com/fdafafd")
    (fun piece member => List.mem_singleton.mp member ▸ path)
  simpa using pieces

end Practise.ExtractHostNames
