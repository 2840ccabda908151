import Practise.ExtractHostNames

/-!
Which texts give host names only. `[^/]+` runs on to the next slash, over a
query, white space and further prose, and up to the scheme of the next URL. So
what is found depends on every scheme of the text from which a slash can be
reached, with one exception: a scheme is passed over if its own slashes end the
match of an earlier one.
-/
namespace Practise.ExtractHostNames
open GoStrings Regexp

/-- A scheme behind this text is passed over: another one stands before it, with
no slash between the two, and is not passed over itself. -/
def Covered (before : Text) : Prop :=
  ∃ earlier : Text, ∃ _ : earlier.length < before.length,
    (∃ (protocol : Protocol) (run : Text),
      before = earlier ++ protocol.scheme ++ run ∧ slash ∉ run) ∧ ¬ Covered earlier
termination_by before.length

theorem scheme_ne_nil (protocol : Protocol) : protocol.scheme ≠ [] := by
  cases protocol <;> decide

theorem earlier_shorter (earlier run : Text) (protocol : Protocol) :
    earlier.length < (earlier ++ protocol.scheme ++ run).length := by
  have := List.length_pos_of_ne_nil (scheme_ne_nil protocol)
  rw [List.length_append, List.length_append]
  omega

theorem covered_iff (before : Text) :
    Covered before ↔ ∃ (earlier : Text) (protocol : Protocol) (run : Text),
      before = earlier ++ protocol.scheme ++ run ∧ slash ∉ run ∧ ¬ Covered earlier := by
  rw [Covered]
  constructor
  · rintro ⟨earlier, -, ⟨protocol, run, split, slashless⟩, exposed⟩
    exact ⟨earlier, protocol, run, split, slashless, exposed⟩
  · rintro ⟨earlier, protocol, run, split, slashless, exposed⟩
    exact ⟨earlier, split ▸ earlier_shorter earlier run protocol, ⟨protocol, run, split, slashless⟩,
      exposed⟩

theorem empty_exposed : ¬ Covered [] := by
  intro covered
  obtain ⟨earlier, protocol, run, split, -, -⟩ := (covered_iff []).mp covered
  have := earlier_shorter earlier run protocol
  rw [← split] at this
  exact Nat.not_lt_zero _ this

/-! Texts cut at their slashes. -/

theorem cut_first (front other behind rest : Text) (slashless : slash ∉ front)
    (same : front ++ slash :: behind = other ++ slash :: rest) :
    (other = front ∧ behind = rest) ∨
      ∃ middle, other = front ++ slash :: middle ∧ behind = middle ++ slash :: rest := by
  rcases List.append_eq_append_iff.mp same with ⟨more, longer, follows⟩ | ⟨more, shorter, follows⟩
  · cases more with
    | nil =>
        rw [List.append_nil] at longer
        rw [List.nil_append, List.cons.injEq] at follows
        exact Or.inl ⟨longer, follows.2⟩
    | cons byte more =>
        rw [List.cons_append, List.cons.injEq] at follows
        exact Or.inr ⟨more, by rw [longer, follows.1], follows.2⟩
  · cases more with
    | nil =>
        rw [List.append_nil] at shorter
        rw [List.nil_append, List.cons.injEq] at follows
        exact Or.inl ⟨shorter.symm, follows.2.symm⟩
    | cons byte more =>
        rw [List.cons_append, List.cons.injEq] at follows
        refine absurd ?_ slashless
        rw [shorter, follows.1]
        exact List.mem_append_right _ List.mem_cons_self

theorem last_in_tail (front tail other : Text) (byte : UInt8) (nonempty : tail ≠ [])
    (same : front ++ tail = other ++ [byte]) : byte ∈ tail := by
  obtain ⟨inner, last, rfl⟩ := (List.eq_nil_or_concat tail).resolve_left nonempty
  rw [List.concat_eq_append, ← List.append_assoc] at same
  rw [List.concat_eq_append, (List.append_inj' same rfl).2]
  exact List.mem_append_right inner List.mem_cons_self

def Protocol.opening (protocol : Protocol) : Text := protocol.name ++ [58]

theorem scheme_opening (protocol : Protocol) :
    protocol.scheme = protocol.opening ++ [slash, slash] := by
  cases protocol <;> rfl

theorem opening_slashless (protocol : Protocol) : slash ∉ protocol.opening := by
  cases protocol <;> decide

/-! A text that holds a match: the URL of the match, and any other URL. -/

theorem same_place_same_host (url other : Url) (rest after : Text)
    (same : url.text ++ rest = other.text ++ after) : other.host = url.host ∧ after = rest := by
  have ways := url_found url rest
  rw [same, url_found other after] at ways
  simp only [List.cons.injEq, Match.mk.injEq, Prod.mk.injEq] at ways
  exact ⟨ways.1.2.2.2.1.2, ways.1.2.1⟩

/-- A URL that starts in another one or behind it starts at its first byte, in
its host, or behind its last slash. -/
theorem url_behind_url (url other : Url) (rest middle after : Text)
    (same : url.text ++ rest = middle ++ (other.text ++ after)) :
    middle = [] ∨ (∃ run, middle = url.protocol.scheme ++ run ∧ slash ∉ run) ∨
      ∃ between, middle = url.text ++ between ∧ rest = between ++ (other.text ++ after) := by
  obtain ⟨tail, start⟩ := url_start other
  rw [Url.text, List.append_assoc, List.append_assoc] at same
  rcases List.append_eq_append_iff.mp same with ⟨more, longer, follows⟩ | ⟨more, scheme, follows⟩
  · right
    rcases List.append_eq_append_iff.mp follows with ⟨between, whole, left⟩ | ⟨part, host, -⟩
    · cases between with
      | nil => exact Or.inl ⟨url.host, by rw [longer, whole, List.append_nil], url.slashless⟩
      | cons byte between =>
          rw [List.singleton_append, List.cons_append, List.cons.injEq] at left
          refine Or.inr ⟨between, ?_, left.2⟩
          rw [longer, whole, ← left.1, Url.text]
          simp
    · refine Or.inl ⟨more, longer, fun member => url.slashless ?_⟩
      rw [host]
      exact List.mem_append_left _ member
  · by_cases empty : middle = []
    · exact Or.inl empty
    · have apart := scheme_start url.protocol middle more empty scheme
      cases more with
      | nil => exact Or.inr (Or.inl ⟨[], by simpa using scheme.symm, List.not_mem_nil⟩)
      | cons byte more =>
          rw [start, List.cons_append, List.cons_append, List.cons.injEq] at follows
          exact absurd (by rw [follows.1]; exact List.mem_cons_self) apart

/-- The leftmost match is at a scheme that is not passed over: the earlier one
would reach the slashes of this one. -/
theorem leftmost_exposed (before rest : Text) (url : Url)
    (leftmost : ∀ first second, before = first ++ second → second ≠ [] →
      hostPattern.ways (second ++ (url.text ++ rest)) = []) : ¬ Covered before := by
  intro covered
  obtain ⟨earlier, protocol, run, split, slashless, -⟩ := (covered_iff before).mp covered
  have reached : slash ∉ run ++ url.protocol.opening := by
    rw [List.mem_append]
    exact fun either => either.elim slashless (opening_slashless url.protocol)
  have some_host : run ++ url.protocol.opening ≠ [] := by simp [Protocol.opening]
  have none := leftmost earlier (protocol.scheme ++ run) (by rw [split, List.append_assoc])
    (fun empty => scheme_ne_nil protocol (List.append_eq_nil_iff.mp empty).1)
  have found := url_found ⟨protocol, run ++ url.protocol.opening, some_host, reached⟩
    (slash :: (url.host ++ slash :: rest))
  have same : Url.text ⟨protocol, run ++ url.protocol.opening, some_host, reached⟩ ++
      slash :: (url.host ++ slash :: rest) = protocol.scheme ++ run ++ (url.text ++ rest) := by
    simp [Url.text, scheme_opening url.protocol]
  rw [same, none] at found
  exact List.cons_ne_nil _ _ found.symm

/-- The last slash of a match is none of the slashes of a scheme that starts
before it and is not passed over. -/
theorem crossing_scheme_covered (before earlier more run behind : Text) (url : Url)
    (protocol : Protocol) (exposed : ¬ Covered before) (slashless : slash ∉ run)
    (ends : before ++ url.text = earlier ++ more) (crosses : more ≠ [])
    (scheme : protocol.scheme ++ run = more ++ behind) : Covered earlier := by
  obtain ⟨front, last, rfl⟩ := (List.eq_nil_or_concat more).resolve_left crosses
  have cut : before ++ url.protocol.scheme ++ url.host ++ [slash] = earlier ++ front ++ [last] := by
    simpa [Url.text] using ends
  obtain ⟨inner, lasts⟩ := List.append_inj' cut rfl
  rw [List.cons.injEq] at lasts
  rw [List.concat_eq_append, ← lasts.1, List.append_assoc, scheme_opening,
    List.append_assoc] at scheme
  rcases cut_first _ _ _ _ (opening_slashless protocol) scheme with
    ⟨rfl, -⟩ | ⟨second, rfl, follows⟩
  · -- It is the first slash: the scheme's name ends the host.
    rw [covered_iff]
    rcases List.append_eq_append_iff.mp inner with ⟨part, whole, host⟩ | ⟨part, whole, host⟩
    · refine ⟨before, url.protocol, part, whole, fun member => url.slashless ?_, exposed⟩
      rw [host]
      exact List.mem_append_left _ member
    · by_cases none : part = []
      · refine ⟨before, url.protocol, [], ?_, List.not_mem_nil, exposed⟩
        rw [whole, none, List.append_nil, List.append_nil]
      · refine absurd ?_ (opening_slashless protocol)
        rw [host]
        refine List.mem_append_left _ (last_in_tail earlier part
          (before ++ url.protocol.opening ++ [slash]) slash none ?_)
        rw [← whole, scheme_opening]
        simp
  · -- It is the second slash, or a later one: the host or the run holds a slash.
    rcases cut_first [] second run behind List.not_mem_nil follows with
      ⟨rfl, -⟩ | ⟨later, -, inside⟩
    · refine absurd (last_in_tail (before ++ url.protocol.scheme) url.host (earlier ++ protocol.opening)
        slash url.nonempty ?_) url.slashless
      rw [inner, List.append_assoc]
    · refine absurd ?_ slashless
      rw [inside]
      exact List.mem_append_right later List.mem_cons_self

theorem covered_behind_match (before between : Text) (url : Url) (exposed : ¬ Covered before) :
    Covered (before ++ url.text ++ between) ↔ Covered between := by
  induction size_eq : between.length using Nat.strong_induction_on generalizing between with
  | _ size ih =>
      constructor
      · intro covered
        obtain ⟨earlier, protocol, run, split, slashless, bare⟩ := (covered_iff _).mp covered
        rw [List.append_assoc earlier] at split
        rcases List.append_eq_append_iff.mp split with ⟨front, rfl, rest⟩ | ⟨more, ends, scheme⟩
        · rw [← List.append_assoc] at rest
          have shorter : front.length < size := by
            rw [← size_eq, rest]
            exact earlier_shorter front run protocol
          rw [ih front.length shorter front rfl] at bare
          exact (covered_iff between).mpr ⟨front, protocol, run, rest, slashless, bare⟩
        · by_cases none : more = []
          · rw [none, List.nil_append] at scheme
            exact (covered_iff between).mpr
              ⟨[], protocol, run, by rw [← scheme, List.nil_append], slashless, empty_exposed⟩
          · exact absurd (crossing_scheme_covered before earlier more run between url protocol
              exposed slashless ends none scheme) bare
      · intro covered
        obtain ⟨earlier, protocol, run, rfl, slashless, bare⟩ := (covered_iff _).mp covered
        have shorter : earlier.length < size := by
          rw [← size_eq]
          exact earlier_shorter earlier run protocol
        rw [← ih earlier.length shorter earlier rfl] at bare
        refine (covered_iff _).mpr ⟨_, protocol, run, ?_, slashless, bare⟩
        simp

theorem url_around_match (before earlier rest behind : Text) (url other : Url)
    (exposed : ¬ Covered before)
    (leftmost : ∀ first second, before = first ++ second → second ≠ [] →
      hostPattern.ways (second ++ (url.text ++ rest)) = [])
    (same : before ++ (url.text ++ rest) = earlier ++ (other.text ++ behind)) :
    (other.host = url.host ∧ behind = rest) ∨ Covered earlier ∨
      ∃ between, earlier = before ++ url.text ++ between ∧
        rest = between ++ (other.text ++ behind) := by
  rcases List.append_eq_append_iff.mp same with ⟨middle, rfl, follows⟩ | ⟨second, split, follows⟩
  · rcases url_behind_url url other rest middle behind follows with
      rfl | ⟨run, rfl, slashless⟩ | ⟨between, rfl, further⟩
    · exact Or.inl (same_place_same_host url other rest behind follows)
    · refine Or.inr (Or.inl ((covered_iff _).mpr ⟨before, url.protocol, run, ?_, slashless, exposed⟩))
      rw [List.append_assoc]
    · exact Or.inr (Or.inr ⟨between, by rw [List.append_assoc], further⟩)
  · by_cases here : second = []
    · rw [here, List.nil_append] at follows
      exact Or.inl (same_place_same_host url other rest behind follows.symm)
    · have none := leftmost earlier second split here
      rw [← follows, url_found other behind] at none
      exact absurd none (List.cons_ne_nil _ _)

/-- What every host of a text is like, and the text behind it, read from the text:
the hosts are those of the URLs at schemes that are not passed over. -/
theorem found_hosts_iff (Good : Text → Text → Prop) (text : Text) (fuel : Nat) (ended : Bool)
    (enough : text.length < fuel) :
    (∀ one ∈ findAllFrom hostPattern fuel ended text, Good (one.submatch 2) one.rest) ↔
      ∀ before url after, text = before ++ (Url.text url ++ after) → ¬ Covered before →
        Good url.host after := by
  induction fuel generalizing text ended with
  | zero => exact absurd enough (Nat.not_lt_zero _)
  | succ fuel ih =>
      rcases find_cases hostPattern text with nowhere | ⟨before, after, one, more, rfl, here, leftmost⟩
      · rw [find_all_none _ _ _ _ (find_none hostPattern text nowhere)]
        refine iff_of_true (fun one member => nomatch member) fun before url after split => ?_
        have none := nowhere before _ split
        rw [url_found url after] at none
        exact absurd none (List.cons_ne_nil _ _)
      · obtain ⟨url, rest, rfl⟩ := way_is_url after one (by rw [here]; exact List.mem_cons_self)
        have exposed := leftmost_exposed before rest url leftmost
        have shorter := rest_shorter before rest url
        rw [found_match before rest url fuel ended leftmost, List.forall_mem_cons,
          ih rest true (by omega)]
        constructor
        · rintro ⟨good, others⟩ earlier other behind split bare
          rcases url_around_match before earlier rest behind url other exposed leftmost split with
            ⟨same, ends⟩ | covered | ⟨between, rfl, further⟩
          · rw [same, ends]
            exact good
          · exact absurd covered bare
          · rw [covered_behind_match before between url exposed] at bare
            exact others between other behind further bare
        · intro all
          refine ⟨all before url rest rfl exposed, fun between other behind split bare => ?_⟩
          apply all (before ++ url.text ++ between) other behind
          · rw [split]
            simp
          · rwa [covered_behind_match before between url exposed]

/-! Host names: the authority of one URL. -/

/-- The characters with the property White_Space, as of `unicode.IsSpace`. -/
def whiteSpace : List Char :=
  ['\t', '\n', '\x0b', '\x0c', '\r', ' ', '\u0085', '\u00a0', '\u1680', '\u2000', '\u2001',
    '\u2002', '\u2003', '\u2004', '\u2005', '\u2006', '\u2007', '\u2008', '\u2009', '\u200a',
    '\u2028', '\u2029', '\u202f', '\u205f', '\u3000']

def delimiters : List Text :=
  (['?', '#'] ++ whiteSpace).map String.utf8EncodeChar

def Delimited (run : Text) : Prop :=
  ∃ part ∈ delimiters, part <:+: run

instance (run : Text) : Decidable (Delimited run) :=
  inferInstanceAs (Decidable (∃ part ∈ delimiters, part <:+: run))

/-- What ends the authority of a URL: its path, its query or fragment, the prose
around it, or the next URL. -/
def EndsAuthority (behind : Text) : Prop :=
  [slash] <+: behind ∨ (∃ part ∈ delimiters, part <+: behind) ∨
    Protocol.http.scheme <+: behind ∨ Protocol.https.scheme <+: behind

instance (behind : Text) : Decidable (EndsAuthority behind) :=
  inferInstanceAs (Decidable (_ ∨ (∃ part ∈ delimiters, part <+: behind) ∨ _ ∨ _))

def authority : Text → Text
  | [] => []
  | byte :: rest => if EndsAuthority (byte :: rest) then [] else byte :: authority rest

/-- A string that was found in front of the slash before this rest of the text is
a host name: it stands behind a scheme, and in the authority of this one URL. -/
structure Confined (text host rest : Text) : Prop where
  nonempty : host ≠ []
  slashless : slash ∉ host
  plain : ¬ Delimited host
  placed : ∃ (before : Text) (protocol : Protocol),
    text = before ++ (protocol.scheme ++ (host ++ slash :: rest))
  inside : host <+: authority (host ++ slash :: rest)

/-- The run is ended by the slashes of another scheme, not by that of a path. -/
def RunsOn (run behind : Text) : Prop :=
  (∃ protocol : Protocol, protocol.opening <:+ run) ∧ [slash] <+: behind

theorem prefix_authority_iff (host behind : Text) :
    host <+: authority (host ++ behind) ↔
      ∀ front back, host = front ++ back → back ≠ [] → ¬ EndsAuthority (back ++ behind) := by
  induction host with
  | nil =>
      refine iff_of_true List.nil_prefix fun front back split nonempty => ?_
      exact absurd (List.append_eq_nil_iff.mp split.symm).2 nonempty
  | cons byte host ih =>
      rw [List.cons_append, authority]
      by_cases ends : EndsAuthority (byte :: (host ++ behind))
      · rw [if_pos ends]
        refine iff_of_false (by simp) fun nowhere => ?_
        exact nowhere [] (byte :: host) rfl (List.cons_ne_nil _ _) ends
      · rw [if_neg ends, List.cons_prefix_cons, and_iff_right rfl, ih]
        constructor
        · intro nowhere front back split nonempty
          cases front with
          | nil =>
              rw [List.nil_append] at split
              rwa [← split]
          | cons other front =>
              rw [List.cons_append, List.cons.injEq] at split
              exact nowhere front back split.2 nonempty
        · intro nowhere front back split nonempty
          exact nowhere (byte :: front) back (by rw [split, List.cons_append]) nonempty

theorem delimiters_plain : ∀ part ∈ delimiters, part ≠ [] ∧ slash ∉ part := by decide +kernel

theorem prefix_before_slash (word back behind : Text) (slashless : slash ∉ word)
    (ahead : word <+: back ++ slash :: behind) : word <+: back := by
  obtain ⟨rest, same⟩ := ahead
  rcases List.append_eq_append_iff.mp same with ⟨more, longer, -⟩ | ⟨more, shorter, follows⟩
  · exact ⟨more, longer.symm⟩
  · cases more with
    | nil => exact ⟨[], by rw [shorter, List.append_nil, List.append_nil]⟩
    | cons byte more =>
        rw [List.cons_append, List.cons.injEq] at follows
        refine absurd ?_ slashless
        rw [shorter, follows.1]
        exact List.mem_append_right _ List.mem_cons_self

theorem scheme_before_slash (protocol : Protocol) (back behind : Text) (slashless : slash ∉ back)
    (ahead : protocol.scheme <+: back ++ slash :: behind) :
    back = protocol.opening ∧ [slash] <+: behind := by
  obtain ⟨rest, same⟩ := ahead
  rw [scheme_opening, List.append_assoc, List.cons_append, List.singleton_append] at same
  rcases cut_first _ _ _ _ (opening_slashless protocol) same with ⟨here, follows⟩ | ⟨more, here, -⟩
  · exact ⟨here, ⟨rest, follows⟩⟩
  · refine absurd ?_ slashless
    rw [here]
    exact List.mem_append_right _ List.mem_cons_self

theorem inside_authority_iff (host behind : Text) (slashless : slash ∉ host) :
    host <+: authority (host ++ slash :: behind) ↔ ¬ Delimited host ∧ ¬ RunsOn host behind := by
  rw [prefix_authority_iff]
  constructor
  · intro nowhere
    constructor
    · rintro ⟨part, listed, front, back, rfl⟩
      rw [List.append_assoc] at nowhere
      refine nowhere front (part ++ back) rfl ?_ (Or.inr (Or.inl ⟨part, listed, ?_⟩))
      · exact fun empty => (delimiters_plain part listed).1 (List.append_eq_nil_iff.mp empty).1
      · rw [List.append_assoc]
        exact List.prefix_append _ _
    · rintro ⟨⟨protocol, front, rfl⟩, rest, rfl⟩
      refine nowhere front protocol.opening rfl (by simp [Protocol.opening]) ?_
      have whole : protocol.opening ++ slash :: ([slash] ++ rest) = protocol.scheme ++ rest := by
        rw [scheme_opening, List.append_assoc]
        rfl
      rw [whole, EndsAuthority]
      cases protocol with
      | http => exact Or.inr (Or.inr (Or.inl (List.prefix_append _ _)))
      | https => exact Or.inr (Or.inr (Or.inr (List.prefix_append _ _)))
  · rintro ⟨plain, stops⟩ front back rfl nonempty ends
    have apart : slash ∉ back := fun member => slashless (List.mem_append_right _ member)
    rcases ends with path | ⟨part, listed, ahead⟩ | http | https
    · obtain ⟨byte, back, rfl⟩ := List.exists_cons_of_ne_nil nonempty
      rw [List.cons_append, List.cons_prefix_cons] at path
      exact apart (path.1 ▸ List.mem_cons_self)
    · have inside := prefix_before_slash part back behind (delimiters_plain part listed).2 ahead
      exact plain ⟨part, listed, inside.isInfix.trans (List.suffix_append front back).isInfix⟩
    · obtain ⟨rfl, next⟩ := scheme_before_slash .http back behind apart http
      exact stops ⟨⟨.http, List.suffix_append front _⟩, next⟩
    · obtain ⟨rfl, next⟩ := scheme_before_slash .https back behind apart https
      exact stops ⟨⟨.https, List.suffix_append front _⟩, next⟩

theorem url_confined_iff (before after : Text) (url : Url) :
    Confined (before ++ (url.text ++ after)) url.host after ↔
      ¬ Delimited url.host ∧ ¬ RunsOn url.host after := by
  constructor
  · intro confined
    exact (inside_authority_iff url.host after url.slashless).mp confined.inside
  · intro both
    refine ⟨url.nonempty, url.slashless, both.1, ⟨before, url.protocol, ?_⟩,
      (inside_authority_iff url.host after url.slashless).mpr both⟩
    simp [Url.text]

end Practise.ExtractHostNames
