import Practise.GoStrings
import Practise.InitSoftMap

/-! The whole of `initSoftMap` of go/custom/block_soft.go on a Redis that holds
a list of integers under each key that matches `cloud_cate_children:*`. The
category of a key is the number between its first and its second colon, so
keys that differ in a sign, in leading zeros or behind a second colon have one
category, and the list of the key that comes last replaces the others. -/
namespace Practise.BlockedCates
open Slices GoStrings

abbrev Key := Text

def keyPrefix : Text := bytes "cloud_cate_children" ++ [58]

structure Redis where
  lists : AList fun _ : Key => List Soft
  matching : ∀ key ∈ lists, keyPrefix <+: key

/-- `KEYS` returns each key once, in any order. -/
def Redis.KeysReply (redis : Redis) (keys : List Key) : Prop := keys.Perm redis.lists.keys

def Redis.lrange (redis : Redis) (key : Key) : Option (List Soft) := redis.lists.lookup key

/-- The loop over the keys. A key without a colon would panic; a failed `LRANGE`
returns the map as it is. -/
def loadKeys (grow : Nat → Nat) (lrange : Key → Option (List Soft)) :
    List Key → Store → Option Store
  | [], store => some store
  | key :: rest, store =>
      (split 58 key)[1]?.bind fun field =>
        match parseInt 32 field with
        | none => loadKeys grow lrange rest store
        | some cateID =>
            match lrange key with
            | none => some store
            | some softs =>
                (storeSofts grow store (Int64.ofInt cateID, softs)).bind
                  (loadKeys grow lrange rest)

/-- A failed `Dial` or `KEYS` is `none`. -/
def initSoftMap (grow : Nat → Nat) (heap : Heap Soft) (dialled : Bool)
    (keys : Option (List Key)) (lrange : Key → Option (List Soft)) : Option Store :=
  if dialled then
    match keys with
    | none => some ⟨heap, ∅⟩
    | some keys => loadKeys grow lrange keys ⟨heap, ∅⟩
  else some ⟨heap, ∅⟩

def cateOf (key : Key) : Option Cate :=
  (split 58 key)[1]?.bind fun field => (parseInt 32 field).map Int64.ofInt

theorem matching_second (key : Key) (matching : keyPrefix <+: key) :
    ∃ field, (split 58 key)[1]? = some field := by
  obtain ⟨rest, rfl⟩ := matching
  rw [keyPrefix, List.append_assoc, List.singleton_append]
  exact split_second 58 (bytes "cloud_cate_children") rest (by decide)

def Redis.entry (redis : Redis) (key : Key) : Option (Cate × List Soft) :=
  (cateOf key).bind fun cate => (redis.lrange key).map fun softs => (cate, softs)

theorem load_keys_spec (grow : Nat → Nat) (redis : Redis) (keys : List Key) (store : Store)
    (known : ∀ key ∈ keys, key ∈ redis.lists) (owned : Owned store) :
    ∃ after, loadKeys grow redis.lrange keys store = some after ∧ Owned after ∧
      after.catalogue = (keys.filterMap redis.entry).foldl enter store.catalogue := by
  induction keys generalizing store with
  | nil => exact ⟨store, rfl, owned, rfl⟩
  | cons key rest ih =>
      have member := known key List.mem_cons_self
      have later : ∀ key ∈ rest, key ∈ redis.lists :=
        fun other inside => known other (List.mem_cons_of_mem key inside)
      obtain ⟨field, second⟩ := matching_second key (redis.matching key member)
      rw [loadKeys, second, Option.bind_some]
      cases parsed : parseInt 32 field with
      | none =>
          have skipped : redis.entry key = none := by
            rw [Redis.entry, cateOf, second, Option.bind_some, parsed, Option.map_none,
              Option.bind_none]
          rw [List.filterMap_cons_none skipped]
          exact ih store later owned
      | some cateID =>
          obtain ⟨softs, found⟩ := Option.isSome_iff_exists.mp (AList.lookup_isSome.mpr member)
          have listed : redis.lrange key = some softs := found
          have entered : redis.entry key = some (Int64.ofInt cateID, softs) := by
            rw [Redis.entry, cateOf, second, Option.bind_some, parsed, Option.map_some,
              Option.bind_some, listed, Option.map_some]
          obtain ⟨next, stored, still, catalogue⟩ :=
            store_softs_spec grow store (Int64.ofInt cateID, softs) owned
          obtain ⟨after, loaded, final, total⟩ := ih next later still
          refine ⟨after, ?_, final, ?_⟩
          · simp only [listed, stored, Option.bind_some, loaded]
          · rw [total, catalogue, List.filterMap_cons_some entered, List.foldl_cons]

/-! What the stored entries leave in a category: nothing new, the list that all
entries for it have, or the list of the last one. -/

theorem entered_absent (entries : List (Cate × List Soft)) (catalogue : Catalogue Cate Soft)
    (cate : Cate) (absent : ∀ entry ∈ entries, entry.1 ≠ cate) :
    entries.foldl enter catalogue cate = catalogue cate := by
  induction entries generalizing catalogue with
  | nil => rfl
  | cons entry rest ih =>
      rw [List.foldl_cons, ih _ fun other member => absent other (List.mem_cons_of_mem entry member),
        enter, Function.update_of_ne (absent entry List.mem_cons_self).symm]

theorem entered_last (entries : List (Cate × List Soft)) (catalogue : Catalogue Cate Soft)
    (cate : Cate) (softs : List Soft) :
    (entries ++ [(cate, softs)]).foldl enter catalogue cate = some softs := by
  rw [List.foldl_append, List.foldl_cons, List.foldl_nil, enter, Function.update_self]

theorem entered_agreed (entries : List (Cate × List Soft)) (catalogue : Catalogue Cate Soft)
    (cate : Cate) (softs : List Soft) (listed : (cate, softs) ∈ entries)
    (agreed : ∀ entry ∈ entries, entry.1 = cate → entry.2 = softs) :
    entries.foldl enter catalogue cate = some softs := by
  induction entries using List.reverseRecOn with
  | nil => exact nomatch listed
  | append_singleton earlier entry ih =>
      by_cases same : entry.1 = cate
      · obtain rfl : entry = (cate, softs) := Prod.ext same (agreed entry (by simp) same)
        exact entered_last earlier catalogue cate softs
      · rw [List.mem_append, List.mem_singleton] at listed
        have before : (cate, softs) ∈ earlier :=
          listed.resolve_right fun last => same (congrArg Prod.fst last.symm)
        rw [List.foldl_append, List.foldl_cons, List.foldl_nil, enter,
          Function.update_of_ne (Ne.symm same)]
        exact ih before fun other member => agreed other (by simp [member])

theorem mem_entries (redis : Redis) (keys : List Key) (cate : Cate) (softs : List Soft) :
    (cate, softs) ∈ keys.filterMap redis.entry ↔
      ∃ key ∈ keys, cateOf key = some cate ∧ redis.lrange key = some softs := by
  simp only [List.mem_filterMap, Redis.entry, Option.bind_eq_some_iff, Option.map_eq_some_iff,
    Prod.mk.injEq]
  constructor
  · rintro ⟨key, member, _, category, _, listed, rfl, rfl⟩
    exact ⟨key, member, category, listed⟩
  · rintro ⟨key, member, category, listed⟩
    exact ⟨key, member, cate, category, softs, listed, rfl, rfl⟩

/-- Keys of one category hold one list. -/
def Redis.Agrees (redis : Redis) : Prop :=
  ∀ key other cate, key ∈ redis.lists → other ∈ redis.lists →
    cateOf key = some cate → cateOf other = some cate → redis.lrange key = redis.lrange other

/-- The map that `initSoftMap` returns for this reply to `KEYS`, with no command
failing. -/
def Redis.Loads (redis : Redis) (grow : Nat → Nat) (heap : Heap Soft) (keys : List Key)
    (catalogue : Catalogue Cate Soft) : Prop :=
  ∃ store, initSoftMap grow heap true (some keys) redis.lrange = some store ∧
    store.catalogue = catalogue

theorem loads_entries (redis : Redis) (grow : Nat → Nat) (heap : Heap Soft) (keys : List Key)
    (reply : redis.KeysReply keys) :
    redis.Loads grow heap keys ((keys.filterMap redis.entry).foldl enter fun _ => none) := by
  obtain ⟨store, loaded, -, catalogue⟩ := load_keys_spec grow redis keys ⟨heap, ∅⟩
    (fun key member => AList.mem_keys.mpr (reply.mem_iff.mp member)) (owned_empty heap)
  exact ⟨store, loaded, catalogue⟩

theorem loads_agreed (redis : Redis) (agrees : redis.Agrees) (keys : List Key)
    (reply : redis.KeysReply keys) (key : Key) (cate : Cate) (member : key ∈ keys)
    (category : cateOf key = some cate) :
    (keys.filterMap redis.entry).foldl enter (fun _ => none) cate = redis.lrange key := by
  have known : ∀ key ∈ keys, key ∈ redis.lists :=
    fun key member => AList.mem_keys.mpr (reply.mem_iff.mp member)
  obtain ⟨softs, found⟩ :=
    Option.isSome_iff_exists.mp (AList.lookup_isSome.mpr (known key member))
  have listed : redis.lrange key = some softs := found
  rw [listed]
  apply entered_agreed _ _ cate softs ((mem_entries ..).mpr ⟨key, member, category, listed⟩)
  rintro ⟨_, others⟩ inside rfl
  obtain ⟨other, present, again, held⟩ := (mem_entries ..).mp inside
  have same := agrees other key _ (known other present) (known key member) again category
  exact Option.some.inj (held.symm.trans (same.trans listed))

/-- The key that is moved to the end decides on its category. -/
theorem loads_last (redis : Redis) (key : Key) (cate : Cate) (member : key ∈ redis.lists)
    (category : cateOf key = some cate) :
    ∃ keys, redis.KeysReply keys ∧
      (keys.filterMap redis.entry).foldl enter (fun _ => none) cate = redis.lrange key := by
  have inside := AList.mem_keys.mp member
  refine ⟨redis.lists.keys.erase key ++ [key], ?_, ?_⟩
  · exact List.perm_append_comm.trans (List.perm_cons_erase inside).symm
  · obtain ⟨softs, found⟩ := Option.isSome_iff_exists.mp (AList.lookup_isSome.mpr member)
    have listed : redis.lrange key = some softs := found
    have entered : redis.entry key = some (cate, softs) := by
      rw [Redis.entry, category, Option.bind_some, listed, Option.map_some]
    rw [List.filterMap_append, List.filterMap_cons_some entered, List.filterMap_nil, entered_last,
      listed]

theorem loads_unique (redis : Redis) (grow : Nat → Nat) (heap : Heap Soft) (keys : List Key)
    (one two : Catalogue Cate Soft) (first : redis.Loads grow heap keys one)
    (second : redis.Loads grow heap keys two) : one = two := by
  obtain ⟨store, loaded, rfl⟩ := first
  obtain ⟨other, again, rfl⟩ := second
  obtain rfl : store = other := Option.some.inj (loaded.symm.trans again)
  rfl

def Redis.OrderFree (redis : Redis) (grow : Nat → Nat) (heap : Heap Soft) : Prop :=
  ∀ one two, redis.KeysReply one → redis.KeysReply two → ∃ catalogue,
    redis.Loads grow heap one catalogue ∧ redis.Loads grow heap two catalogue

/-- The list of no key is overwritten by that of another. -/
def Redis.KeepsLists (redis : Redis) (grow : Nat → Nat) (heap : Heap Soft) : Prop :=
  ∀ keys, redis.KeysReply keys → ∃ catalogue, redis.Loads grow heap keys catalogue ∧
    ∀ key ∈ keys, ∀ cate, cateOf key = some cate → catalogue cate = redis.lrange key

theorem agrees_keeps (redis : Redis) (grow : Nat → Nat) (heap : Heap Soft)
    (agrees : redis.Agrees) : redis.KeepsLists grow heap := by
  intro keys reply
  exact ⟨_, loads_entries redis grow heap keys reply, fun key member cate category =>
    loads_agreed redis agrees keys reply key cate member category⟩

theorem keeps_agrees (redis : Redis) (grow : Nat → Nat) (heap : Heap Soft)
    (keeps : redis.KeepsLists grow heap) : redis.Agrees := by
  intro key other cate member present category again
  obtain ⟨catalogue, -, kept⟩ := keeps redis.lists.keys (List.Perm.refl _)
  have one := kept key (AList.mem_keys.mp member) cate category
  have two := kept other (AList.mem_keys.mp present) cate again
  exact one.symm.trans two

theorem agrees_order_free (redis : Redis) (grow : Nat → Nat) (heap : Heap Soft)
    (agrees : redis.Agrees) : redis.OrderFree grow heap := by
  intro one two first second
  have same : (one.filterMap redis.entry).foldl enter (fun _ => none) =
      (two.filterMap redis.entry).foldl enter fun _ => none := by
    funext cate
    by_cases loaded : ∃ key ∈ one, cateOf key = some cate
    · obtain ⟨key, member, category⟩ := loaded
      have present : key ∈ two := second.mem_iff.mpr (first.mem_iff.mp member)
      rw [loads_agreed redis agrees one first key cate member category,
        loads_agreed redis agrees two second key cate present category]
    · have absent : ∀ keys, redis.KeysReply keys →
          ∀ entry ∈ keys.filterMap redis.entry, entry.1 ≠ cate := by
        rintro keys reply ⟨_, softs⟩ inside rfl
        obtain ⟨key, member, category, -⟩ := (mem_entries ..).mp inside
        exact loaded ⟨key, first.mem_iff.mpr (reply.mem_iff.mp member), category⟩
      rw [entered_absent _ _ cate (absent one first), entered_absent _ _ cate (absent two second)]
  exact ⟨_, loads_entries redis grow heap one first, same ▸ loads_entries redis grow heap two second⟩

theorem order_free_agrees (redis : Redis) (grow : Nat → Nat) (heap : Heap Soft)
    (orderFree : redis.OrderFree grow heap) : redis.Agrees := by
  intro key other cate member present category again
  obtain ⟨one, first, ownList⟩ := loads_last redis key cate member category
  obtain ⟨two, second, otherList⟩ := loads_last redis other cate present again
  obtain ⟨catalogue, loadsOne, loadsTwo⟩ := orderFree one two first second
  rw [← ownList, ← otherList,
    loads_unique redis grow heap one _ _ (loads_entries redis grow heap one first) loadsOne,
    loads_unique redis grow heap two _ _ (loads_entries redis grow heap two second) loadsTwo]

/-- The map does not depend on the order of the keys, and no key's list is lost,
exactly if the keys of each category hold the same list. -/
theorem key_order_exact (redis : Redis) (grow : Nat → Nat) (heap : Heap Soft) :
    (redis.OrderFree grow heap ↔ redis.Agrees) ∧ (redis.KeepsLists grow heap ↔ redis.Agrees) :=
  ⟨⟨order_free_agrees redis grow heap, agrees_order_free redis grow heap⟩,
    ⟨keeps_agrees redis grow heap, agrees_keeps redis grow heap⟩⟩

def twoKeys : Redis where
  lists := ((∅ : AList fun _ : Key => List Soft).insert (bytes "cloud_cate_children:1") [5]).insert
    (bytes "cloud_cate_children:01:x") [6]
  matching := by
    intro key member
    rw [AList.mem_insert, AList.mem_insert] at member
    rcases member with rfl | rfl | nowhere
    · decide
    · decide
    · exact absurd nowhere (AList.notMem_empty key)

theorem later_key_overwrites :
    (initSoftMap id ⟨fun _ => [], 1⟩ true
        (some [bytes "cloud_cate_children:1", bytes "cloud_cate_children:01:x"])
        twoKeys.lrange).map (fun store => store.catalogue 1) = some (some [6]) ∧
    (initSoftMap id ⟨fun _ => [], 1⟩ true
        (some [bytes "cloud_cate_children:01:x", bytes "cloud_cate_children:1"])
        twoKeys.lrange).map (fun store => store.catalogue 1) = some (some [5]) ∧
    ¬ twoKeys.OrderFree id ⟨fun _ => [], 1⟩ := by
  have one : (initSoftMap id ⟨fun _ => [], 1⟩ true
      (some [bytes "cloud_cate_children:1", bytes "cloud_cate_children:01:x"])
      twoKeys.lrange).map (fun store => store.catalogue 1) = some (some [6]) := by
    decide +kernel
  have two : (initSoftMap id ⟨fun _ => [], 1⟩ true
      (some [bytes "cloud_cate_children:01:x", bytes "cloud_cate_children:1"])
      twoKeys.lrange).map (fun store => store.catalogue 1) = some (some [5]) := by
    decide +kernel
  refine ⟨one, two, fun orderFree => ?_⟩
  obtain ⟨catalogue, ⟨first, loaded, same⟩, ⟨second, again, equal⟩⟩ :=
    orderFree [bytes "cloud_cate_children:1", bytes "cloud_cate_children:01:x"]
      [bytes "cloud_cate_children:01:x", bytes "cloud_cate_children:1"]
      (List.Perm.swap _ _ _) (List.Perm.refl _)
  rw [loaded, Option.map_some, Option.some.injEq, same] at one
  rw [again, Option.map_some, Option.some.injEq, equal] at two
  exact absurd (one.symm.trans two) (by decide)

/-! Which keys are read at all. A sign and leading zeros are allowed, so a category
has many keys. -/

/-- A key is read for a category exactly if a numeral of the category stands behind
the first colon, with nothing or a second colon after it. -/
theorem category_key_exact (rest : Text) (cate : Cate) :
    cateOf (keyPrefix ++ rest) = some cate ↔
      ∃ numeral tail, rest = numeral ++ tail ∧ (tail = [] ∨ ∃ more, tail = 58 :: more) ∧
        Numeral numeral cate.toInt ∧ -2147483648 ≤ cate.toInt ∧ cate.toInt < 2147483648 := by
  have field_of : ∀ field tail, 58 ∉ field → (tail = [] ∨ ∃ more, tail = 58 :: more) →
      cateOf (keyPrefix ++ (field ++ tail)) = (parseInt 32 field).map Int64.ofInt := by
    intro field tail inside ends
    rw [keyPrefix, List.append_assoc, List.singleton_append, cateOf,
      split_field 58 _ field tail (by decide) inside ends, Option.bind_some]
  constructor
  · intro category
    obtain ⟨field, tail, rfl, apart, ends⟩ := first_field 58 rest
    rw [field_of field tail apart ends, Option.map_eq_some_iff] at category
    obtain ⟨number, parsed, rfl⟩ := category
    obtain ⟨numeral, low, high⟩ := (parse_int_iff 32 field number).mp parsed
    have range : -2147483648 ≤ number ∧ number < 2147483648 := ⟨low, high⟩
    rw [Int64.toInt_ofInt_of_le (by omega) (by omega)]
    exact ⟨field, tail, rfl, ends, numeral, range⟩
  · rintro ⟨numeral, tail, rfl, ends, spelled, range⟩
    rw [field_of numeral tail (numeral_colonless _ _ spelled) ends,
      (parse_int_iff 32 numeral cate.toInt).mpr ⟨spelled, range⟩, Option.map_some, Int64.ofInt_toInt]

end Practise.BlockedCates
