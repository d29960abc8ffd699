import HeapImage.Proofs.Bytes.Shows
import HeapImage.Proofs.Heap.Graph
import HeapImage.Proofs.Image.Grammar
import HeapImage.Writer.Record

/-!
# Layouts

A layout says what an image is made of: objects, as they were when they were copied, and roots, one
after the other. Together with the words that stand for the references it determines every byte of
the image.
-/

namespace HeapImage
set_option autoImplicit false

namespace Object
variable {ρ : Type}

def extent : Object ρ → Nat
  | constructor _ fields scalars => 24 + 8 * fields.size + scalars.size
  | array elements => 16 + 8 * elements.size
  | byteArray _ bytes => 16 + bytes.size
  | string bytes => 16 + bytes.size + 1
  | thunk _ => 24
  | task _ => 16
  | promise _ => 16
  | mutableRef _ => 24
  | bigInteger value => 24 + 8 * value.limbs.length

def shape : Object ρ → Shape
  | constructor tag fields scalars => .constructor tag.toNat fields.size scalars.size
  | array elements => .array elements.size
  | byteArray elemSize bytes => .byteArray elemSize.toNat (bytes.size / elemSize.toNat)
  | string bytes => .string bytes.size
  | thunk _ => .thunk
  | task _ => .task
  | promise _ => .promise
  | mutableRef _ => .mutableRef
  | bigInteger value => .bigInteger value.negative.toNat value.limbs.length

theorem payloadSize?_eq_some_iff {o : Object ρ} {payload : Nat} :
    o.payloadSize? = some payload ↔ 8 + payload = o.extent ∧ payload < wordLimit := by
  cases o <;>
    simp only [payloadSize?, extent, Payload.constructor?, Payload.array?, Payload.byteArray?,
      Payload.string?, Payload.thunk, Payload.cell, Payload.mutableRef, Payload.bigInteger?,
      Option.bind_eq_bind, Option.bind_eq_some_iff, add?_eq_some, mul?_eq_some,
      Option.some.injEq, and_assoc, exists_eq_left', wordLimit]
  all_goals omega

theorem le_extent (o : Object ρ) : 16 ≤ o.extent := by
  cases o <;> simp only [extent] <;> omega

theorem recordSize?_eq_some_iff {o : Object ρ} {n : Nat} :
    o.recordSize? = some n ↔ n = roundUp o.extent ∧ n < wordLimit := by
  simp only [recordSize?, Option.bind_eq_bind, Option.bind_eq_some_iff, payloadSize?_eq_some_iff,
    HeapImage.recordSize?_eq_some]
  constructor
  · intro hsize
    obtain ⟨payload, ⟨hpayload, _⟩, hn, hlt⟩ := hsize
    exact ⟨by rw [hn, hpayload], hlt⟩
  · intro hsize
    obtain ⟨hn, hlt⟩ := hsize
    have hle := le_roundUp o.extent
    have hextent := o.le_extent
    exact ⟨o.extent - 8, ⟨by omega, by omega⟩, by rw [hn]; congr 1; omega, hlt⟩

theorem extent_shape {o : Object ρ} (ho : o.WellFormed) : o.shape.extent = o.extent := by
  cases o with
  | byteArray elemSize bytes =>
    rw [shape, extent, Shape.extent, Nat.div_mul_cancel (Nat.dvd_of_mod_eq_zero ho.2)]
  | _ => rfl

/-- The words of a record that stand between its header and its references. -/
def counts : Object ρ → List UInt8
  | constructor _ fields scalars => leBytes 8 fields.size ++ leBytes 8 scalars.size
  | array elements => leBytes 8 elements.size
  | mutableRef _ => leBytes 8 0
  | _ => []

/-- What stands in the record of a leaf and does not depend on where the record stands. -/
def contents : Object ρ → List UInt8
  | byteArray elemSize bytes => leBytes 8 (bytes.size / elemSize.toNat) ++ bytes.toList
  | string bytes => leBytes 8 bytes.size ++ bytes.toList
  | bigInteger value =>
    leBytes 8 value.limbs.length ++ value.limbs.flatMap fun limb => leBytes 8 limb.toNat
  | _ => []

def tail (o : Object ρ) (limbsAt : Nat) : List UInt8 :=
  match o with
  | constructor _ _ scalars => scalars.toList
  | bigInteger _ => leBytes 8 limbsAt ++ o.contents
  | _ => o.contents

def tailSize : Object ρ → Nat
  | constructor _ _ scalars => scalars.size
  | byteArray _ bytes => 8 + bytes.size
  | string bytes => 8 + bytes.size
  | bigInteger value => 16 + 8 * value.limbs.length
  | _ => 0

theorem length_counts (o : Object ρ) : 8 + o.counts.length = o.slotsAt := by
  cases o <;> simp [counts, slotsAt]

theorem length_limbs (limbs : List UInt64) :
    (limbs.flatMap fun limb => leBytes 8 limb.toNat).length = 8 * limbs.length := by
  induction limbs with
  | nil => rfl
  | cons limb rest ih =>
    rw [List.flatMap_cons, List.length_append, ih, length_leBytes, List.length_cons]
    omega

@[simp] theorem length_tail (o : Object ρ) (limbsAt : Nat) :
    (o.tail limbsAt).length = o.tailSize := by
  cases o <;> simp only [tail, contents, tailSize, List.length_append, length_leBytes,
    length_limbs, Array.length_toList, List.length_nil]
  omega

theorem header_lt (o : Object ρ) : 16 * o.extra + o.tagNumber < 2 ^ 32 := by
  cases o with
  | constructor tag =>
    have := tag.toNat_lt
    simp only [extra, tagNumber]
    omega
  | byteArray elemSize =>
    have := elemSize.toNat_lt
    simp only [extra, tagNumber]
    omega
  | bigInteger value =>
    have := value.negative.toNat_le
    simp only [extra, tagNumber]
    omega
  | _ => simp [extra, tagNumber]

theorem filled_le_extent (o : Object ρ) :
    o.slotsAt + 8 * o.children.length + o.tailSize ≤ o.extent := by
  cases o with
  | thunk state => cases state <;> simp [slotsAt, children, tailSize, extent]
  | task result | promise result => cases result <;> simp [slotsAt, children, tailSize, extent]
  | _ =>
    simp only [slotsAt, children, tailSize, extent, Array.length_toList, List.length_nil,
      List.length_singleton]
    omega

end Object

/-- The words from a position on, given what stands at each. -/
def wordsFrom (f : Nat → Nat) : Nat → Nat → List UInt8
  | _, 0 => []
  | pos, count + 1 => leBytes 8 (f pos) ++ wordsFrom f (pos + 8) count

def fillIn (f : Nat → Nat) (slot word : Nat) : Nat → Nat := fun s => if s = slot then word else f s

section Words
variable {f g : Nat → Nat} {pos count slot : Nat}

@[simp] theorem fillIn_self (f : Nat → Nat) (slot word : Nat) : fillIn f slot word slot = word :=
  if_pos rfl

theorem fillIn_of_ne {f : Nat → Nat} {word s : Nat} (hs : s ≠ slot) :
    fillIn f slot word s = f s :=
  if_neg hs

@[simp] theorem length_wordsFrom (f : Nat → Nat) (pos count : Nat) :
    (wordsFrom f pos count).length = 8 * count := by
  induction count generalizing pos with
  | zero => rfl
  | succ count ih =>
    rw [wordsFrom, List.length_append, ih, length_leBytes]
    omega

theorem wordsFrom_congr (h : ∀ i, i < count → f (pos + 8 * i) = g (pos + 8 * i)) :
    wordsFrom f pos count = wordsFrom g pos count := by
  induction count generalizing pos with
  | zero => rfl
  | succ count ih =>
    have hfirst := h 0 (Nat.succ_pos count)
    have hrest : wordsFrom f (pos + 8) count = wordsFrom g (pos + 8) count := by
      apply ih
      intro i hi
      have hnext := h (i + 1) (Nat.succ_lt_succ hi)
      rwa [show pos + 8 * (i + 1) = pos + 8 + 8 * i by omega] at hnext
    rw [Nat.mul_zero, Nat.add_zero] at hfirst
    rw [wordsFrom, wordsFrom, hfirst, hrest]

theorem wordsFrom_fillIn (f : Nat → Nat) (pos : Nat) {i : Nat} (hi : i < count) (word : Nat) :
    ∃ before after, before.length = 8 * i ∧
      wordsFrom f pos count = before ++ (leBytes 8 (f (pos + 8 * i)) ++ after) ∧
      wordsFrom (fillIn f (pos + 8 * i) word) pos count = before ++ (leBytes 8 word ++ after) := by
  induction count generalizing pos i with
  | zero => omega
  | succ count ih =>
    cases i with
    | zero =>
      refine ⟨[], wordsFrom f (pos + 8) count, rfl, rfl, ?_⟩
      have hrest : wordsFrom (fillIn f (pos + 8 * 0) word) (pos + 8) count =
          wordsFrom f (pos + 8) count := by
        refine wordsFrom_congr fun i _ => fillIn_of_ne ?_
        omega
      rw [wordsFrom, hrest, Nat.mul_zero, Nat.add_zero, fillIn_self, List.nil_append]
    | succ i =>
      obtain ⟨before, after, hlength, hold, hnew⟩ := ih (pos + 8) (show i < count by omega)
      have hslot : pos + 8 + 8 * i = pos + 8 * (i + 1) := by omega
      rw [hslot] at hold hnew
      refine ⟨leBytes 8 (f pos) ++ before, after, ?_, ?_, ?_⟩
      · rw [List.length_append, length_leBytes, hlength]
        omega
      · rw [wordsFrom, hold, List.append_assoc]
      · rw [wordsFrom, hnew, fillIn_of_ne (by omega), List.append_assoc]

theorem wordsFrom_zero (pos count : Nat) :
    wordsFrom (fun _ => 0) pos count = List.replicate (8 * count) 0 := by
  induction count generalizing pos with
  | zero => rfl
  | succ count ih =>
    have hzero : leBytes 8 0 = List.replicate 8 0 := by decide
    rw [wordsFrom, ih, hzero, List.replicate_append_replicate]
    congr 1
    omega

end Words

/-- What a part of an image holds: an object that was copied, with its number, or a root. -/
inductive Entry where
  | object (id : Nat) (o : Object Value)
  | terminator (root : Value)

namespace Entry

def size : Entry → Nat
  | object _ o => roundUp o.extent
  | terminator _ => 16

def shape : Entry → Shape
  | object _ o => o.shape
  | terminator _ => .terminator

def refs : Entry → List Value
  | object _ o => o.children
  | terminator root => [root]

def refsAt : Entry → Nat
  | object _ o => o.slotsAt
  | terminator _ => 8

def header : Entry → List UInt8
  | object _ o => leBytes 4 0 ++ (leBytes 4 (16 * o.extra + o.tagNumber) ++ o.counts)
  | terminator _ => leBytes 4 0 ++ leBytes 4 15

def tail (e : Entry) (limbsAt : Nat) : List UInt8 :=
  match e with
  | object _ o => o.tail limbsAt
  | terminator _ => []

def tailSize : Entry → Nat
  | object _ o => o.tailSize
  | terminator _ => 0

/-- The references of the entry at a position, with the offsets at which they stand. -/
def slots (e : Entry) (pos : Nat) : List (Nat × Value) :=
  e.refs.mapIdx fun i v => (pos + e.refsAt + 8 * i, v)

def encode (base : Nat) (f : Nat → Nat) (pos : Nat) (e : Entry) : List UInt8 :=
  e.header ++ (wordsFrom f (pos + e.refsAt) e.refs.length ++ (e.tail (base + (pos + 24)) ++
    List.replicate (e.size - (e.refsAt + 8 * e.refs.length + e.tailSize)) 0))

variable {f g : Nat → Nat} {base pos : Nat} {e : Entry}

@[simp] theorem length_header (e : Entry) : e.header.length = e.refsAt := by
  cases e with
  | object id o =>
    have := o.length_counts
    simp only [header, refsAt, List.length_append, length_leBytes]
    omega
  | terminator root => simp [header, refsAt]

@[simp] theorem length_tail (e : Entry) (limbsAt : Nat) : (e.tail limbsAt).length = e.tailSize := by
  cases e with
  | object id o => exact o.length_tail limbsAt
  | terminator root => rfl

theorem filled_le_size (e : Entry) : e.refsAt + 8 * e.refs.length + e.tailSize ≤ e.size := by
  cases e with
  | object id o => exact Nat.le_trans o.filled_le_extent (le_roundUp _)
  | terminator root => simp [refsAt, refs, tailSize, size]

@[simp] theorem length_encode (base : Nat) (f : Nat → Nat) (pos : Nat) (e : Entry) :
    (e.encode base f pos).length = e.size := by
  have := e.filled_le_size
  simp only [encode, List.length_append, length_header, length_wordsFrom, length_tail,
    List.length_replicate]
  omega

theorem le_size (e : Entry) : 16 ≤ e.size := by
  cases e with
  | object id o => exact Nat.le_trans o.le_extent (le_roundUp _)
  | terminator root => exact Nat.le_refl _

theorem size_mod (e : Entry) : e.size % 8 = 0 := by
  cases e with
  | object id o => exact roundUp_mod _
  | terminator root => simp [size]

theorem mem_slots {slot : Nat} {v : Value} :
    (slot, v) ∈ e.slots pos ↔ ∃ i, e.refs[i]? = some v ∧ slot = pos + e.refsAt + 8 * i := by
  simp only [slots, List.mem_mapIdx, Prod.mk.injEq]
  constructor
  · intro hmem
    obtain ⟨i, hi, rfl, rfl⟩ := hmem
    exact ⟨i, List.getElem?_eq_getElem hi, rfl⟩
  · intro hmem
    obtain ⟨i, hv, rfl⟩ := hmem
    obtain ⟨hi, rfl⟩ := List.getElem?_eq_some_iff.mp hv
    exact ⟨i, hi, rfl, rfl⟩

theorem bounds_of_mem_slots {slot : Nat} {v : Value} (h : (slot, v) ∈ e.slots pos) :
    pos ≤ slot ∧ slot + 8 ≤ pos + e.size := by
  obtain ⟨i, hv, rfl⟩ := mem_slots.mp h
  obtain ⟨hi, _⟩ := List.getElem?_eq_some_iff.mp hv
  have := e.filled_le_size
  omega

theorem encode_congr (h : ∀ slot v, (slot, v) ∈ e.slots pos → f slot = g slot) :
    e.encode base f pos = e.encode base g pos := by
  rw [encode, encode, wordsFrom_congr fun i hi => h _ _ (mem_slots.mpr
    ⟨i, List.getElem?_eq_getElem hi, rfl⟩)]

theorem encode_fillIn (base : Nat) (f : Nat → Nat) {slot : Nat} {v : Value}
    (h : (slot, v) ∈ e.slots pos) (word : Nat) :
    ∃ before after, pos + before.length = slot ∧
      e.encode base f pos = before ++ (leBytes 8 (f slot) ++ after) ∧
      e.encode base (fillIn f slot word) pos = before ++ (leBytes 8 word ++ after) := by
  obtain ⟨i, hv, rfl⟩ := mem_slots.mp h
  obtain ⟨hi, _⟩ := List.getElem?_eq_some_iff.mp hv
  obtain ⟨before, after, hlength, hold, hnew⟩ :=
    wordsFrom_fillIn f (pos + e.refsAt) hi word
  refine ⟨e.header ++ before, after ++ (e.tail (base + (pos + 24)) ++
    List.replicate (e.size - (e.refsAt + 8 * e.refs.length + e.tailSize)) 0), ?_, ?_, ?_⟩
  · rw [List.length_append, length_header, hlength]
    omega
  · simp only [encode, hold, List.append_assoc]
  · simp only [encode, hnew, List.append_assoc]

theorem shows_parts {bytes : Bytes} (hs : bytes.Shows pos (e.encode base f pos)) :
    bytes.Shows pos e.header ∧
    bytes.Shows (pos + e.refsAt) (wordsFrom f (pos + e.refsAt) e.refs.length) ∧
    bytes.Shows (pos + e.refsAt + 8 * e.refs.length) (e.tail (base + (pos + 24))) ∧
    bytes.Shows (pos + e.refsAt + 8 * e.refs.length + e.tailSize)
      (List.replicate (e.size - (e.refsAt + 8 * e.refs.length + e.tailSize)) 0) := by
  simpa only [encode, Bytes.shows_append, length_header, length_wordsFrom, length_tail] using hs

end Entry

/-- Entries one after the other, each with the offset at which it starts. -/
def placed : Nat → List Entry → List (Nat × Entry)
  | _, [] => []
  | pos, e :: rest => (pos, e) :: placed (pos + e.size) rest

def totalSize (layout : List Entry) : Nat := (layout.map Entry.size).sum

def encodeAll (base : Nat) (f : Nat → Nat) (pos : Nat) (layout : List Entry) : List UInt8 :=
  (placed pos layout).flatMap fun p => p.2.encode base f p.1

def slotsFrom (pos : Nat) (layout : List Entry) : List (Nat × Value) :=
  (placed pos layout).flatMap fun p => p.2.slots p.1

/-- All bytes of an image: the header, and then its layout. -/
def imageBytes (base : Nat) (f : Nat → Nat) (layout : List Entry) : List UInt8 :=
  leBytes 8 magic ++ (leBytes 8 base ++ encodeAll base f headerSize layout)

section Layouts
variable {f g : Nat → Nat} {base pos off : Nat} {e e' : Entry} {layout rest : List Entry}

@[simp] theorem totalSize_nil : totalSize [] = 0 := rfl

@[simp] theorem totalSize_cons : totalSize (e :: rest) = e.size + totalSize rest := by
  simp [totalSize]

@[simp] theorem totalSize_append :
    totalSize (layout ++ rest) = totalSize layout + totalSize rest := by
  simp [totalSize]

theorem totalSize_mod (layout : List Entry) : totalSize layout % 8 = 0 := by
  induction layout with
  | nil => rfl
  | cons e rest ih =>
    have := e.size_mod
    rw [totalSize_cons]
    omega

@[simp] theorem encodeAll_nil : encodeAll base f pos [] = [] := rfl

@[simp] theorem encodeAll_cons : encodeAll base f pos (e :: rest) =
    e.encode base f pos ++ encodeAll base f (pos + e.size) rest := by
  simp [encodeAll, placed]

theorem placed_append : placed pos (layout ++ rest) =
    placed pos layout ++ placed (pos + totalSize layout) rest := by
  induction layout generalizing pos with
  | nil => simp [placed]
  | cons e layout ih =>
    rw [List.cons_append, placed, placed, ih, totalSize_cons, List.cons_append, Nat.add_assoc]

theorem encodeAll_append : encodeAll base f pos (layout ++ rest) =
    encodeAll base f pos layout ++ encodeAll base f (pos + totalSize layout) rest := by
  rw [encodeAll, placed_append, List.flatMap_append]
  rfl

theorem slotsFrom_append : slotsFrom pos (layout ++ rest) =
    slotsFrom pos layout ++ slotsFrom (pos + totalSize layout) rest := by
  rw [slotsFrom, placed_append, List.flatMap_append]
  rfl

@[simp] theorem slotsFrom_singleton : slotsFrom pos [e] = e.slots pos := by
  simp [slotsFrom, placed]

@[simp] theorem length_encodeAll (base : Nat) (f : Nat → Nat) (pos : Nat) (layout : List Entry) :
    (encodeAll base f pos layout).length = totalSize layout := by
  induction layout generalizing pos with
  | nil => rfl
  | cons e rest ih =>
    rw [encodeAll_cons, List.length_append, ih, Entry.length_encode, totalSize_cons]

theorem bounds_of_mem_placed (h : (off, e) ∈ placed pos layout) :
    pos ≤ off ∧ off + e.size ≤ pos + totalSize layout := by
  induction layout generalizing pos with
  | nil => cases h
  | cons first rest ih =>
    rw [totalSize_cons]
    rcases List.mem_cons.mp h with heq | hrest
    · cases heq
      omega
    · have := ih hrest
      omega

/-- Two entries are one, or the one ends before the other starts. -/
theorem apart_of_mem_placed {off' : Nat} (h : (off, e) ∈ placed pos layout)
    (h' : (off', e') ∈ placed pos layout) :
    (off = off' ∧ e = e') ∨ off + e.size ≤ off' ∨ off' + e'.size ≤ off := by
  induction layout generalizing pos with
  | nil => cases h
  | cons first rest ih =>
    rcases List.mem_cons.mp h with heq | hrest <;> rcases List.mem_cons.mp h' with heq' | hrest'
    · cases heq
      cases heq'
      exact .inl ⟨rfl, rfl⟩
    · cases heq
      exact .inr (.inl (bounds_of_mem_placed hrest').1)
    · cases heq'
      exact .inr (.inr (bounds_of_mem_placed hrest).1)
    · exact ih hrest hrest'

theorem eq_of_mem_placed (h : (off, e) ∈ placed pos layout) (h' : (off, e') ∈ placed pos layout) :
    e = e' := by
  have := e.le_size
  have := e'.le_size
  rcases apart_of_mem_placed h h' with ⟨_, heq⟩ | hlt | hlt
  · exact heq
  · omega
  · omega

theorem mem_of_mem_placed (h : (off, e) ∈ placed pos layout) : e ∈ layout := by
  induction layout generalizing pos with
  | nil => cases h
  | cons first rest ih =>
    rcases List.mem_cons.mp h with heq | hrest
    · cases heq
      exact List.mem_cons_self
    · exact List.mem_cons_of_mem _ (ih hrest)

theorem exists_mem_placed (pos : Nat) (h : e ∈ layout) : ∃ off, (off, e) ∈ placed pos layout := by
  induction layout generalizing pos with
  | nil => cases h
  | cons first rest ih =>
    rcases List.mem_cons.mp h with rfl | hrest
    · exact ⟨pos, List.mem_cons_self⟩
    · obtain ⟨off, hoff⟩ := ih (pos + first.size) hrest
      exact ⟨off, List.mem_cons_of_mem _ hoff⟩

theorem mem_slotsFrom {slot : Nat} {v : Value} :
    (slot, v) ∈ slotsFrom pos layout ↔
      ∃ off e, (off, e) ∈ placed pos layout ∧ (slot, v) ∈ e.slots off := by
  simp only [slotsFrom, List.mem_flatMap, Prod.exists]

theorem bounds_of_mem_slotsFrom {slot : Nat} {v : Value} (h : (slot, v) ∈ slotsFrom pos layout) :
    pos ≤ slot ∧ slot + 8 ≤ pos + totalSize layout := by
  obtain ⟨off, e, he, hslot⟩ := mem_slotsFrom.mp h
  have := bounds_of_mem_placed he
  have := Entry.bounds_of_mem_slots hslot
  omega

theorem eq_of_mem_slotsFrom {slot : Nat} {v v' : Value} (h : (slot, v) ∈ slotsFrom pos layout)
    (h' : (slot, v') ∈ slotsFrom pos layout) : v = v' := by
  obtain ⟨off, e, he, hslot⟩ := mem_slotsFrom.mp h
  obtain ⟨off', e', he', hslot'⟩ := mem_slotsFrom.mp h'
  have hbounds := Entry.bounds_of_mem_slots hslot
  have hbounds' := Entry.bounds_of_mem_slots hslot'
  rcases apart_of_mem_placed he he' with ⟨rfl, rfl⟩ | hlt | hlt
  · obtain ⟨i, hi, hat⟩ := Entry.mem_slots.mp hslot
    obtain ⟨i', hi', hat'⟩ := Entry.mem_slots.mp hslot'
    have hsame : i = i' := by omega
    rw [hsame, hi'] at hi
    exact (Option.some.inj hi).symm
  · omega
  · omega

theorem mem_placed_concat : (off, e') ∈ placed pos (layout ++ [e]) ↔
    (off, e') ∈ placed pos layout ∨ off = pos + totalSize layout ∧ e' = e := by
  rw [placed_append, List.mem_append]
  simp only [placed, List.mem_singleton, Prod.mk.injEq]

theorem mem_slotsFrom_concat {slot : Nat} {v : Value} :
    (slot, v) ∈ slotsFrom pos (layout ++ [e]) ↔
      (slot, v) ∈ slotsFrom pos layout ∨ (slot, v) ∈ e.slots (pos + totalSize layout) := by
  rw [slotsFrom_append, List.mem_append, slotsFrom_singleton]

theorem encodeAll_congr (h : ∀ slot v, (slot, v) ∈ slotsFrom pos layout → f slot = g slot) :
    encodeAll base f pos layout = encodeAll base g pos layout := by
  induction layout generalizing pos with
  | nil => rfl
  | cons e rest ih =>
    have hslots : slotsFrom pos (e :: rest) = e.slots pos ++ slotsFrom (pos + e.size) rest := rfl
    rw [hslots] at h
    rw [encodeAll_cons, encodeAll_cons,
      Entry.encode_congr fun slot v hv => h slot v (List.mem_append_left _ hv),
      ih fun slot v hv => h slot v (List.mem_append_right _ hv)]

/-- Filling in one reference changes one word. -/
theorem encodeAll_fillIn (base : Nat) (f : Nat → Nat) {slot : Nat} {v : Value}
    (h : (slot, v) ∈ slotsFrom pos layout) (word : Nat) :
    ∃ before after, pos + before.length = slot ∧
      encodeAll base f pos layout = before ++ (leBytes 8 (f slot) ++ after) ∧
      encodeAll base (fillIn f slot word) pos layout = before ++ (leBytes 8 word ++ after) := by
  induction layout generalizing pos with
  | nil => cases h
  | cons e rest ih =>
    obtain ⟨off, e', he, hslot⟩ := mem_slotsFrom.mp h
    rcases List.mem_cons.mp he with heq | hrest
    · cases heq
      obtain ⟨before, after, hlength, hold, hnew⟩ :=
        Entry.encode_fillIn base f hslot word
      have hbounds := Entry.bounds_of_mem_slots hslot
      refine ⟨before, after ++ encodeAll base f (pos + e.size) rest, hlength, ?_, ?_⟩
      · rw [encodeAll_cons, hold, List.append_assoc, List.append_assoc]
      · have hsame : encodeAll base (fillIn f slot word) (pos + e.size) rest =
            encodeAll base f (pos + e.size) rest := by
          apply encodeAll_congr
          intro s v hv
          have hbehind := bounds_of_mem_slotsFrom hv
          exact fillIn_of_ne (by omega)
        rw [encodeAll_cons, hnew, hsame, List.append_assoc, List.append_assoc]
    · have hmem : (slot, v) ∈ slotsFrom (pos + e.size) rest :=
        mem_slotsFrom.mpr ⟨off, e', hrest, hslot⟩
      obtain ⟨before, after, hlength, hold, hnew⟩ := ih hmem
      have hbounds := bounds_of_mem_slotsFrom hmem
      refine ⟨e.encode base f pos ++ before, after, ?_, ?_, ?_⟩
      · rw [List.length_append, Entry.length_encode]
        omega
      · rw [encodeAll_cons, hold, List.append_assoc]
      · have hsame : e.encode base (fillIn f slot word) pos = e.encode base f pos := by
          apply Entry.encode_congr
          intro s v hv
          have hbefore := Entry.bounds_of_mem_slots hv
          exact fillIn_of_ne (by omega)
        rw [encodeAll_cons, hnew, hsame, List.append_assoc]

end Layouts
end HeapImage
