import Mathlib.Data.List.Basic

/-! The parts of the C library that a block-wise file server rests on: 16-bit
values in host and network order, C strings in a buffer, arrays of fixed size
and read streams with a position. A negative seek fails and leaves the position
alone; a read returns what is there and advances. -/
namespace Practise.Clib

/-! Shorts. Conversion to `short` and to `unsigned short` keeps the residue
modulo 65536; the two differ only in the range they choose it from. -/
section Shorts

def toShort (value : Int) : Int := value.bmod 65536

def toUShort (value : Int) : Nat := (value % 65536).toNat

/-- The two bytes of `htons(value)` in memory. -/
def networkShort (value : Int) : List UInt8 :=
  [UInt8.ofNat (toUShort value / 256), UInt8.ofNat (toUShort value % 256)]

/-- `ntohs` of the unsigned short stored in two bytes. -/
def hostShort (high low : UInt8) : Nat := high.toNat * 256 + low.toNat

theorem to_ushort_lt (value : Int) : toUShort value < 65536 := by
  unfold toUShort
  omega

theorem to_ushort_natural (value : Nat) (small : value < 65536) : toUShort value = value := by
  unfold toUShort
  omega

theorem to_short_eq (value : Int) : toShort value =
    if value % 65536 < 32768 then value % 65536 else value % 65536 - 65536 := rfl

theorem to_short_small (value : Nat) (small : value < 32768) : toShort value = value := by
  rw [to_short_eq]
  omega

theorem to_short_large (value : Nat) (lower : 32768 ≤ value) (upper : value < 65536) :
    toShort value = value - 65536 := by
  rw [to_short_eq]
  omega

theorem to_ushort_to_short (value : Int) : toUShort (toShort value) = toUShort value := by
  rw [to_short_eq]
  unfold toUShort
  omega

theorem to_ushort_succ_short (value : Int) :
    toUShort (toShort value + 1) = toUShort (value + 1) := by
  rw [to_short_eq]
  unfold toUShort
  omega

theorem network_short_to_short (value : Int) :
    networkShort (toShort value) = networkShort value := by
  simp only [networkShort, to_ushort_to_short]

theorem host_short_network (value : Int) :
    hostShort (UInt8.ofNat (toUShort value / 256)) (UInt8.ofNat (toUShort value % 256)) =
      toUShort value := by
  have bound := to_ushort_lt value
  simp only [hostShort, UInt8.toNat_ofNat']
  omega

end Shorts

/-! C strings. The scan copies up to the first zero byte and goes on behind
it; it has no result if the memory ends before a zero byte. -/
section Strings

def scanString : List UInt8 → Option (List UInt8 × List UInt8)
  | [] => none
  | byte :: rest =>
      if byte = 0 then some ([], rest)
      else (scanString rest).map fun scanned => (byte :: scanned.1, scanned.2)

theorem scan_string_exact (text rest : List UInt8) (clean : 0 ∉ text) :
    scanString (text ++ 0 :: rest) = some (text, rest) := by
  induction text with
  | nil => simp [scanString]
  | cons byte tail ih =>
      have visible : byte ≠ 0 := fun same => clean (by simp [same])
      have cleanTail : 0 ∉ tail := fun member => clean (List.mem_cons_of_mem byte member)
      simp [scanString, visible, ih cleanTail]

/-- What a scan finds is followed by a zero byte and has none in it. -/
theorem scan_string_found (memory text rest : List UInt8)
    (found : scanString memory = some (text, rest)) :
    memory = text ++ 0 :: rest ∧ 0 ∉ text := by
  induction memory generalizing text with
  | nil => exact absurd found (by simp [scanString])
  | cons byte tail ih =>
      rw [scanString] at found
      by_cases zero : byte = 0
      · rw [if_pos zero] at found
        obtain ⟨rfl, rfl⟩ := Prod.mk.inj (Option.some.inj found)
        simp [zero]
      · rw [if_neg zero] at found
        obtain ⟨⟨scanned, behind⟩, scan, same⟩ := Option.map_eq_some_iff.mp found
        obtain ⟨rfl, rfl⟩ := Prod.mk.inj same
        obtain ⟨split, clean⟩ := ih scanned scan
        refine ⟨by rw [split, List.cons_append], ?_⟩
        simp [clean, Ne.symm zero]

end Strings

/-! Arrays of fixed size. An access outside is not carried out; it reports the
error that the caller names. -/
section Buffers
variable {Item Error : Type} {capacity : Nat}

structure Buffer (Item : Type) (capacity : Nat) where
  items : List Item
  size : items.length = capacity

def Buffer.filled (capacity : Nat) (item : Item) : Buffer Item capacity :=
  ⟨List.replicate capacity item, List.length_replicate⟩

def Buffer.store (buffer : Buffer Item capacity) (error : Error) (index : Nat) (item : Item) :
    Except Error (Buffer Item capacity) :=
  if index < capacity then
    .ok ⟨buffer.items.set index item, by rw [List.length_set, buffer.size]⟩
  else .error error

/-- `memcpy` to `buffer + offset`. -/
def Buffer.memcpy (buffer : Buffer Item capacity) (error : Error) (offset : Nat)
    (data : List Item) : Except Error (Buffer Item capacity) :=
  if fits : offset + data.length ≤ capacity then
    .ok ⟨buffer.items.take offset ++ data ++ buffer.items.drop (offset + data.length), by
      have := buffer.size
      simp only [List.length_append, List.length_take, List.length_drop]
      omega⟩
  else .error error

/-- The array starts with this data. -/
def Buffer.Starts (buffer : Buffer Item capacity) (data : List Item) : Prop :=
  buffer.items.take data.length = data

/-- Copying behind what is there extends it, as long as there is room. -/
theorem memcpy_behind (buffer : Buffer Item capacity) (error : Error) (before data : List Item)
    (offset : Nat) (starts : buffer.Starts before) (ends : before.length = offset) :
    (offset + data.length ≤ capacity ∧ ∃ after,
        buffer.memcpy error offset data = .ok after ∧ after.Starts (before ++ data)) ∨
      (capacity < offset + data.length ∧ buffer.memcpy error offset data = .error error) := by
  subst ends
  by_cases fits : before.length + data.length ≤ capacity
  · refine Or.inl ⟨fits, _, by rw [Buffer.memcpy, dif_pos fits], ?_⟩
    have front : buffer.items.take before.length = before := starts
    change (buffer.items.take before.length ++ data ++ _).take (before ++ data).length = _
    rw [front, List.take_left]
  · exact Or.inr ⟨by omega, by rw [Buffer.memcpy, dif_neg fits]⟩

/-- The text is in a zero-initialised array, from its start on. -/
def Buffer.Holds (buffer : Buffer UInt8 capacity) (text : List UInt8) : Prop :=
  buffer.items = text ++ List.replicate (capacity - text.length) 0

/-- The string that a function reads which gets the array as a `char *`. -/
def Buffer.cString (buffer : Buffer UInt8 capacity) : Option (List UInt8) :=
  (scanString buffer.items).map Prod.fst

theorem filled_holds : (Buffer.filled capacity (0 : UInt8)).Holds [] := rfl

theorem holds_unique (left right : Buffer UInt8 capacity) (text : List UInt8)
    (leftHolds : left.Holds text) (rightHolds : right.Holds text) : left = right := by
  obtain ⟨items, size⟩ := left
  obtain ⟨others, _⟩ := right
  have same : items = others := Eq.trans leftHolds (Eq.symm rightHolds)
  subst same
  rfl

theorem store_next (buffer : Buffer UInt8 capacity) (error : Error) (text : List UInt8)
    (byte : UInt8) (holds : buffer.Holds text) (room : text.length < capacity) :
    ∃ after, buffer.store error text.length byte = .ok after ∧ after.Holds (text ++ [byte]) := by
  refine ⟨_, by rw [Buffer.store, if_pos room], ?_⟩
  have items : buffer.items = text ++ List.replicate (capacity - text.length) 0 := holds
  have zeros : capacity - text.length = (capacity - (text ++ [byte]).length) + 1 := by
    rw [List.length_append, List.length_singleton]
    omega
  change buffer.items.set text.length byte = _
  rw [items, List.set_append_right _ _ (Nat.le_refl _), Nat.sub_self, zeros, List.replicate_succ,
    List.set_cons_zero, List.append_assoc, List.singleton_append]

theorem holds_cString (buffer : Buffer UInt8 capacity) (text : List UInt8)
    (holds : buffer.Holds text) (clean : 0 ∉ text) (room : text.length < capacity) :
    buffer.cString = some text := by
  have items : buffer.items = text ++ List.replicate (capacity - text.length) 0 := holds
  have zeros : capacity - text.length = (capacity - text.length - 1) + 1 := by omega
  rw [Buffer.cString, items, zeros, List.replicate_succ, scan_string_exact text _ clean,
    Option.map_some]

end Buffers

/-! Read streams. `ident` tells the open files of a process apart. -/
section Streams
variable {Item : Type}

structure Stream (Item : Type) where
  ident : Nat
  content : List Item
  position : Nat
  deriving DecidableEq

def Stream.fseek (stream : Stream Item) (offset : Int) : Stream Item :=
  if offset < 0 then stream else { stream with position := offset.toNat }

def Stream.fread (stream : Stream Item) (count : Nat) : List Item × Stream Item :=
  let data := (stream.content.drop stream.position).take count
  (data, { stream with position := stream.position + data.length })

/-- The items at the offsets from `size * index` on, cut at the end. -/
def block (size : Nat) (content : List Item) (index : Nat) : List Item :=
  (content.drop (size * index)).take size

theorem block_length (size : Nat) (content : List Item) (index : Nat) :
    (block size content index).length = min size (content.length - size * index) := by
  simp [block]

theorem block_replicate (size count index : Nat) (item : Item) :
    block size (List.replicate count item) index =
      List.replicate (min size (count - size * index)) item := by
  rw [block, List.drop_replicate, List.take_replicate]

/-- The blocks up to the first short one, which may be empty, make up the
whole content. -/
theorem blocks_flatten (size : Nat) (positive : 0 < size) (content : List Item) :
    ((List.range (content.length / size + 1)).map (block size content)).flatten = content := by
  have partly : ∀ count, count ≤ content.length / size + 1 →
      ((List.range count).map (block size content)).flatten = content.take (size * count) := by
    intro count
    induction count with
    | zero => simp
    | succ count ih =>
        intro inside
        rw [List.range_succ, List.map_append, List.flatten_append, ih (by omega)]
        simp only [List.map_cons, List.map_nil, List.flatten_cons, List.flatten_nil,
          List.append_nil, block, Nat.mul_succ, List.take_add]
  rw [partly _ (Nat.le_refl _)]
  apply List.take_of_length_le
  have := Nat.lt_mul_div_succ content.length positive
  rw [Nat.mul_succ, Nat.mul_comm] at this ⊢
  omega

end Streams

end Practise.Clib
