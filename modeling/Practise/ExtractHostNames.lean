import Practise.GoStrings
import Practise.Regexp

/-!
`extractHostNames` of go/regexp/main.go. Texts are bytes here, and `[^/]` takes
one byte where Go's regexp takes one rune; both ends of a run of `[^/]` are
ASCII, so the runs are the same. A host is whatever stands between the scheme
and the next slash, wherever that is.
-/
namespace Practise.ExtractHostNames
open GoStrings Regexp

def slash : UInt8 := 47

/-- `[^/]` -/
def notSlash (byte : UInt8) : Bool := byte ≠ slash

/-- `([^/]+)/` -/
def hostPart : Pattern UInt8 := .seq (.group 2 (.plus (.single notSlash))) (literal [slash])

/-- `(http|https)://([^/]+)/` -/
def hostPattern : Pattern UInt8 :=
  .seq (.group 1 (.alt (literal (bytes "http")) (literal (bytes "https"))))
    (.seq (literal (bytes "://")) hostPart)

def extractHostNames (text : Text) : List Text :=
  (findAll hostPattern text).map fun one => one.submatch 2

inductive Protocol where
  | http
  | https

def Protocol.name : Protocol → Text
  | .http => bytes "http"
  | .https => bytes "https"

def Protocol.scheme (protocol : Protocol) : Text := protocol.name ++ bytes "://"

/-- A URL up to the slash behind its host. -/
structure Url where
  protocol : Protocol
  host : Text
  nonempty : host ≠ []
  slashless : slash ∉ host

def Url.text (url : Url) : Text := url.protocol.scheme ++ url.host ++ [slash]

/-! The matches at one position. -/

theorem host_part_run (text : Text) :
    hostPart.ways text =
      if text.takeWhile notSlash = [] then []
      else ((literal [slash]).ways (text.dropWhile notSlash)).map
        (Match.andThen ⟨text.takeWhile notSlash, text.dropWhile notSlash,
          [(2, text.takeWhile notSlash)]⟩) := by
  have run := greedy_run notSlash text.length text (Nat.le_refl _)
    (fun one => ((literal [slash]).ways one.rest).map
      (Match.andThen { one with groups := one.groups ++ [(2, one.taken)] })) ?_
  · rw [hostPart, Pattern.ways, Pattern.ways, Pattern.ways, List.flatMap_map]
    exact run
  -- The slash cannot follow in front of a byte that is none.
  · rintro ⟨taken, _, groups⟩ byte rest rfl other
    have different : byte ≠ slash := by simpa [notSlash] using other
    rw [literal_absent [slash] (byte :: rest), List.map_nil]
    exact fun ahead => different (List.cons_prefix_cons.mp ahead).1.symm

theorem host_part_found (host rest : Text) (nonempty : host ≠ []) (slashless : slash ∉ host) :
    hostPart.ways (host ++ slash :: rest) = [⟨host ++ [slash], rest, [(2, host)]⟩] := by
  have inside : ∀ byte ∈ host, notSlash byte = true := by
    intro byte member
    simpa [notSlash] using fun same : byte = slash => slashless (same ▸ member)
  have stop : ¬ notSlash slash = true := by decide
  rw [host_part_run, List.takeWhile_append_of_pos inside, List.dropWhile_append_of_pos inside,
    List.takeWhile_cons_of_neg stop, List.dropWhile_cons_of_neg stop, List.append_nil,
    if_neg nonempty]
  have here : (literal [slash]).ways (slash :: rest) = [⟨[slash], rest, []⟩] :=
    literal_here [slash] rest
  rw [here]
  rfl

theorem host_part_none (text : Text)
    (none : ∀ host rest, host ≠ [] → slash ∉ host → text ≠ host ++ slash :: rest) :
    hostPart.ways text = [] := by
  rw [host_part_run]
  by_cases empty : text.takeWhile notSlash = []
  · rw [if_pos empty]
  · rw [if_neg empty, literal_absent, List.map_nil]
    rintro ⟨rest, ends⟩
    apply none _ rest empty
    · intro member
      exact absurd (List.all_eq_true.mp List.all_takeWhile slash member) (by decide)
    · calc text
        _ = text.takeWhile notSlash ++ text.dropWhile notSlash :=
            List.takeWhile_append_dropWhile.symm
        _ = text.takeWhile notSlash ++ slash :: rest := by rw [← ends]; rfl

theorem behind_name_found (host rest : Text) (nonempty : host ≠ []) (slashless : slash ∉ host) :
    (Pattern.seq (literal (bytes "://")) hostPart).ways (bytes "://" ++ (host ++ slash :: rest)) =
      [⟨bytes "://" ++ (host ++ [slash]), rest, [(2, host)]⟩] := by
  rw [Pattern.ways, literal_here, List.flatMap_cons, List.flatMap_nil, List.append_nil,
    host_part_found host rest nonempty slashless]
  rfl

theorem https_bytes : bytes "https" = bytes "http" ++ [115] := by decide

theorem colon_bytes : bytes "://" = [58, slash, slash] := by decide

/-- At a URL there is one match, which takes the URL. -/
theorem url_found (url : Url) (rest : Text) :
    hostPattern.ways (url.text ++ rest) =
      [⟨url.text, rest, [(1, url.protocol.name), (2, url.host)]⟩] := by
  obtain ⟨protocol, host, nonempty, slashless⟩ := url
  have whole : Url.text ⟨protocol, host, nonempty, slashless⟩ ++ rest =
      protocol.name ++ (bytes "://" ++ (host ++ slash :: rest)) := by
    simp [Url.text, Protocol.scheme]
  have taken : Url.text ⟨protocol, host, nonempty, slashless⟩ =
      protocol.name ++ (bytes "://" ++ (host ++ [slash])) := by
    simp [Url.text, Protocol.scheme]
  have behind := behind_name_found host rest nonempty slashless
  rw [whole, taken, hostPattern, Pattern.ways, Pattern.ways, Pattern.ways]
  cases protocol with
  | http =>
      have other : (literal (bytes "https")).ways
          (bytes "http" ++ (bytes "://" ++ (host ++ slash :: rest))) = [] := by
        apply literal_absent
        rw [https_bytes, List.prefix_append_right_inj, colon_bytes, List.cons_append,
          List.cons_prefix_cons]
        exact fun both => absurd both.1 (by decide)
      rw [Protocol.name, literal_here, other, List.append_nil, List.map_singleton,
        List.flatMap_singleton, behind]
      rfl
  | https =>
      have first : (literal (bytes "http")).ways
          (bytes "https" ++ (bytes "://" ++ (host ++ slash :: rest))) =
            [⟨bytes "http", 115 :: (bytes "://" ++ (host ++ slash :: rest)), []⟩] := by
        rw [https_bytes, List.append_assoc, literal_here, List.singleton_append]
      -- The name "http" is tried first and finds an "s" in front of the colon.
      have stuck : (Pattern.seq (literal (bytes "://")) hostPart).ways
          (115 :: (bytes "://" ++ (host ++ slash :: rest))) = [] := by
        rw [Pattern.ways, literal_absent, List.flatMap_nil]
        rw [colon_bytes, List.cons_prefix_cons]
        exact fun both => absurd both.1 (by decide)
      rw [Protocol.name, first, literal_here, List.singleton_append, List.map_cons,
        List.map_singleton, List.flatMap_cons, List.flatMap_singleton, stuck, List.map_nil,
        List.nil_append, behind]
      rfl

theorem way_is_url (text : Text) (one : Match UInt8) (way : one ∈ hostPattern.ways text) :
    ∃ url rest, text = Url.text url ++ rest := by
  rw [hostPattern, Pattern.ways, Pattern.ways, Pattern.ways] at way
  simp only [List.mem_flatMap, List.mem_map, List.mem_append] at way
  obtain ⟨_, ⟨named, either, rfl⟩, later, inside, rfl⟩ := way
  rw [Pattern.ways, List.mem_flatMap] at inside
  obtain ⟨colon, ahead, further⟩ := inside
  have known : ∃ protocol : Protocol, text = protocol.name ++ named.rest := by
    rcases either with http | https
    · exact ⟨.http, literal_sound _ text named http⟩
    · exact ⟨.https, literal_sound _ text named https⟩
  obtain ⟨protocol, rfl⟩ := known
  have scheme := literal_sound _ _ colon ahead
  by_contra none
  rw [host_part_none colon.rest, List.map_nil] at further
  · exact List.not_mem_nil further
  · intro host rest nonempty slashless same
    refine none ⟨⟨protocol, host, nonempty, slashless⟩, rest, ?_⟩
    simp only at scheme
    rw [scheme, same]
    simp [Url.text, Protocol.scheme]

theorem no_url_no_way (text : Text) (none : ∀ url rest, text ≠ Url.text url ++ rest) :
    hostPattern.ways text = [] := by
  rw [List.eq_nil_iff_forall_not_mem]
  intro one way
  obtain ⟨url, rest, same⟩ := way_is_url text one way
  exact none url rest same

/-! Where a URL can start: the "h" of a scheme is its first byte only. -/

theorem scheme_start (protocol : Protocol) (first rest : Text) (nonempty : first ≠ [])
    (split : protocol.scheme = first ++ rest) : 104 ∉ rest := by
  obtain ⟨byte, first, rfl⟩ := List.exists_cons_of_ne_nil nonempty
  have once : ∃ tail, protocol.scheme = 104 :: tail ∧ 104 ∉ tail := by
    cases protocol with
    | http => exact ⟨_, rfl, by decide⟩
    | https => exact ⟨_, rfl, by decide⟩
  obtain ⟨tail, begins, apart⟩ := once
  rw [begins, List.cons_append, List.cons.injEq] at split
  rw [split.2] at apart
  exact fun member => apart (List.mem_append_right first member)

theorem url_start (url : Url) : ∃ tail, url.text = 104 :: tail := by
  cases same : url.protocol with
  | http => exact ⟨_, by rw [Url.text, same]; rfl⟩
  | https => exact ⟨_, by rw [Url.text, same]; rfl⟩

/-- Text between two URLs, without the beginning of a third. -/
structure Filler where
  text : Text
  plain : ∀ protocol : Protocol, ¬ protocol.scheme <:+: text

/-- No URL starts in a filler, also not one that would end behind it. -/
theorem filler_no_url (filler : Filler) (first second after : Text)
    (split : filler.text = first ++ second) (nonempty : second ≠ [])
    (next : after = [] ∨ ∃ tail, after = 104 :: tail) :
    hostPattern.ways (second ++ after) = [] := by
  apply no_url_no_way
  intro url rest same
  rw [Url.text, List.append_assoc, List.append_assoc] at same
  rcases List.append_eq_append_iff.mp same with ⟨behind, scheme, follows⟩ | ⟨left, whole, -⟩
  · -- The scheme would run from the filler into the URL.
    have apart := scheme_start url.protocol second behind nonempty scheme
    cases behind with
    | nil =>
        refine filler.plain url.protocol ⟨first, [], ?_⟩
        rw [scheme, List.append_nil, List.append_nil, split]
    | cons byte behind =>
        rcases next with rfl | ⟨tail, rfl⟩
        · exact nomatch follows
        · rw [List.cons_append, List.cons.injEq] at follows
          exact apart (by rw [follows.1]; exact List.mem_cons_self)
  · exact filler.plain url.protocol ⟨first, left, by rw [split, whole, List.append_assoc]⟩

/-- A text made of URLs and fillers. -/
def textOf (first : Filler) (pieces : List (Url × Filler)) : Text :=
  first.text ++ pieces.flatMap fun piece => piece.1.text ++ piece.2.text

theorem url_text_ne_nil (url : Url) : url.text ≠ [] := by
  simp [Url.text]

theorem empty_no_way : hostPattern.ways [] = [] :=
  no_url_no_way [] fun url _ same =>
    url_text_ne_nil url (List.append_eq_nil_iff.mp same.symm).1

/-- The leftmost URL gives the first match, and the search goes on behind it. -/
theorem found_match (before rest : Text) (url : Url) (fuel : Nat) (ended : Bool)
    (leftmost : ∀ first second, before = first ++ second → second ≠ [] →
      hostPattern.ways (second ++ (url.text ++ rest)) = []) :
    findAllFrom hostPattern (fuel + 1) ended (before ++ (url.text ++ rest)) =
      ⟨url.text, rest, [(1, url.protocol.name), (2, url.host)]⟩ ::
        findAllFrom hostPattern fuel true rest := by
  have found := find_first hostPattern before _ _ _ (url_found url rest) leftmost
  rw [find_all_some hostPattern fuel ended _ before _ found (url_text_ne_nil url)]

theorem found_url (before rest : Text) (url : Url) (fuel : Nat) (ended : Bool)
    (leftmost : ∀ first second, before = first ++ second → second ≠ [] →
      hostPattern.ways (second ++ (url.text ++ rest)) = []) :
    (findAllFrom hostPattern (fuel + 1) ended (before ++ (url.text ++ rest))).map
        (fun one => one.submatch 2) =
      url.host :: (findAllFrom hostPattern fuel true rest).map fun one => one.submatch 2 := by
  rw [found_match before rest url fuel ended leftmost, List.map_cons]
  rfl

theorem rest_shorter (before rest : Text) (url : Url) :
    rest.length < (before ++ (url.text ++ rest)).length := by
  have := List.length_pos_of_ne_nil (url_text_ne_nil url)
  rw [List.length_append, List.length_append]
  omega

theorem found_pieces (first : Filler) (pieces : List (Url × Filler)) (fuel : Nat) (ended : Bool)
    (enough : (textOf first pieces).length < fuel) :
    (findAllFrom hostPattern fuel ended (textOf first pieces)).map (fun one => one.submatch 2) =
      pieces.map fun piece => piece.1.host := by
  induction pieces generalizing first fuel ended with
  | nil =>
      rw [find_all_none, List.map_nil, List.map_nil]
      apply find_none
      intro before after split
      by_cases empty : after = []
      · rw [empty, empty_no_way]
      · have no_way := filler_no_url first before after []
          (by rw [← split, textOf, List.flatMap_nil, List.append_nil]) empty (Or.inl rfl)
        rwa [List.append_nil] at no_way
  | cons piece pieces ih =>
      obtain ⟨url, filler⟩ := piece
      have whole : textOf first ((url, filler) :: pieces) =
          first.text ++ (url.text ++ textOf filler pieces) := by
        rw [textOf, List.flatMap_cons, textOf, List.append_assoc]
      rw [whole] at enough ⊢
      obtain ⟨fuel, rfl⟩ := Nat.exists_eq_add_one_of_ne_zero (Nat.ne_zero_of_lt enough)
      have shorter := rest_shorter first.text (textOf filler pieces) url
      obtain ⟨tail, start⟩ := url_start url
      rw [found_url, ih filler fuel true (by omega), List.map_cons]
      intro before second split nonempty
      exact filler_no_url first before second _ split nonempty
        (Or.inr ⟨tail ++ textOf filler pieces, by rw [start, List.cons_append]⟩)

/-- Exactly the hosts of the URLs are found, in their order. -/
theorem hosts_of_urls_extracted (first : Filler) (pieces : List (Url × Filler)) :
    extractHostNames (textOf first pieces) = pieces.map fun piece => piece.1.host :=
  found_pieces first pieces _ false (Nat.lt_succ_self _)

/-- The sample of `main`. -/
example : extractHostNames (bytes ("pfdafaf http://www.com/fd/fdafaf;fads " ++
    "http://abc.com/fda; https://qq.com/fdafafd")) =
      [bytes "www.com", bytes "abc.com", bytes "qq.com"] := by decide +kernel

end Practise.ExtractHostNames
