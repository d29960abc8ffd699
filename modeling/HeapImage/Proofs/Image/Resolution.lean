import HeapImage.Proofs.Heap.Graph
import HeapImage.Proofs.Image.Grammar

/-!
# Resolving references

The reader numbers the object records in order and replaces every reference by the number of the
record that it denotes. Here the numbering and the replacement are said as functions of the list of
records, and so is the graph that an image holds. The reader accepts exactly the images, and gives
this graph.
-/

namespace HeapImage
set_option autoImplicit false

def objectRecords (records : List Record) : List Record := records.filter fun r => !r.isTerminator

/-- The value that a stored word stands for, for objects numbered from `first` on. -/
def wordValue (base first : Nat) (records : List Record) (word : Nat) : Value :=
  if word % 2 = 1 then .scalar ⟨word / 2 % scalarLimit, Nat.mod_lt _ (by decide)⟩
  else .object (first + ((objectRecords records).map Record.offset).idxOf (word - base))

/-- The graph that an image with the given records holds. -/
def imageGraph (bytes : Bytes) (base first : Nat) (records : List Record) : ImageGraph where
  objects := ((records.filterMap (Record.object? bytes)).map
    (Object.map fun ref => wordValue base first records ref.word)).toArray
  roots := ((records.filterMap (Record.root? bytes)).map
    fun ref => wordValue base first records ref.word).toArray

section Numbering

/-- The numbers given out so far are the positions in the list of offsets. -/
def Numbers (index : Std.ExtTreeMap Nat Nat) (offsets : List Nat) : Prop :=
  ∀ offset number : Nat, index[offset]? = some number ↔ offsets[number]? = some offset

theorem Numbers.insert {index : Std.ExtTreeMap Nat Nat} {offsets : List Nat} {offset : Nat}
    (h : Numbers index offsets) (hnew : offset ∉ offsets) :
    Numbers (index.insert offset offsets.length) (offsets ++ [offset]) := by
  intro other number
  rw [Std.ExtTreeMap.getElem?_insert]
  by_cases heq : offset = other
  · subst heq
    have hnone : ∀ i, offsets[i]? ≠ some offset := fun i hi => hnew (List.mem_of_getElem? hi)
    have := hnone number
    simp only [Std.compare_self, if_true, Option.some.injEq, List.getElem?_append]
    split
    · simp only [this, iff_false]
      omega
    · rw [List.getElem?_singleton]
      split
      · simp only [iff_true]
        omega
      · simp only [reduceCtorEq, iff_false]
        omega
  · have hcmp : ¬compare offset other = .eq := by simpa using heq
    rw [if_neg hcmp, h other number, List.getElem?_append]
    split
    · rfl
    · rename_i hge
      rw [List.getElem?_eq_none (by omega), List.getElem?_singleton]
      split
      · simp [heq]
      · simp

theorem numbers_foldl (records : List Record) {index : Std.ExtTreeMap Nat Nat}
    {offsets : List Nat} (h : Numbers index offsets)
    (hd : (offsets ++ records.map Record.offset).Nodup) :
    Numbers (records.foldl (fun (index, count) r =>
        if r.isTerminator then (index, count) else (index.insert r.offset count, count + 1))
      (index, offsets.length)).1
      (offsets ++ (objectRecords records).map Record.offset) := by
  induction records generalizing index offsets with
  | nil => simpa [objectRecords] using h
  | cons r rest ih =>
    simp only [List.foldl_cons]
    by_cases hr : r.isTerminator = true
    · have hsub : (offsets ++ rest.map Record.offset).Nodup := by
        refine hd.sublist (List.Sublist.append_left ?_ _)
        exact List.sublist_cons_self _ _
      simpa [hr, objectRecords] using ih h hsub
    · have hnew : r.offset ∉ offsets := by
        intro hmem
        simp only [List.map_cons, List.nodup_append] at hd
        exact hd.2.2 _ hmem _ List.mem_cons_self rfl
      have hd' : (offsets ++ [r.offset] ++ rest.map Record.offset).Nodup := by
        simpa using hd
      have := ih (h.insert hnew) hd'
      simpa [hr, objectRecords] using this

theorem numbers_ofRecords {records : Array Record}
    (hd : (records.toList.map Record.offset).Nodup) :
    Numbers (RecordIndex.ofRecords records)
      ((objectRecords records.toList).map Record.offset) := by
  have hempty : Numbers (∅ : Std.ExtTreeMap Nat Nat) [] := by
    intro offset number
    simp
  have := numbers_foldl records.toList hempty (by simpa using hd)
  simpa only [RecordIndex.ofRecords, ← Array.foldl_toList, List.nil_append, List.length_nil]
    using this

end Numbering

theorem mem_objectRecords {records : List Record} {r : Record} :
    r ∈ objectRecords records ↔ r ∈ records ∧ r.isTerminator = false := by
  simp [objectRecords]

theorem resolve_eq_ok_iff {records : Array Record}
    (hd : (records.toList.map Record.offset).Nodup) {base first : Nat} {ref : RawRef} {v : Value} :
    ref.resolve (RecordIndex.ofRecords records) base first = .ok v ↔
      IsReference base records.toList ref.word ∧
        v = wordValue base first records.toList ref.word := by
  have hnumbers := numbers_ofRecords hd
  have hnodup : ((objectRecords records.toList).map Record.offset).Nodup := by
    refine hd.sublist (List.Sublist.map _ ?_)
    exact List.filter_sublist
  unfold RawRef.resolve wordValue IsReference
  by_cases hodd : ref.word % 2 = 1
  · rw [if_pos hodd, if_pos hodd, Except.ok.injEq]
    exact ⟨fun h => ⟨.inl hodd, h.symm⟩, fun h => h.2.symm⟩
  simp only [hodd, if_false, false_or]
  by_cases hbase : base ≤ ref.word
  · rw [if_pos hbase]
    cases hlookup : (RecordIndex.ofRecords records)[ref.word - base]? with
    | some number =>
      obtain ⟨hlt, hat⟩ := List.getElem?_eq_some_iff.mp ((hnumbers _ _).mp hlookup)
      have hidx := hnodup.idxOf_getElem number hlt
      rw [hat] at hidx
      obtain ⟨r, hr, hoffset⟩ := List.mem_map.mp (hat ▸ List.getElem_mem hlt)
      have hr := mem_objectRecords.mp hr
      simp only [Except.ok.injEq, hidx]
      constructor
      · rintro rfl
        exact ⟨⟨r, hr.1, hr.2, by omega⟩, rfl⟩
      · rintro ⟨_, rfl⟩
        rfl
    | none =>
      simp only [reduceCtorEq, false_iff]
      rintro ⟨⟨r, hr, hobject, hword⟩, _⟩
      have hmem : r.offset ∈ (objectRecords records.toList).map Record.offset :=
        List.mem_map_of_mem (mem_objectRecords.mpr ⟨hr, hobject⟩)
      obtain ⟨number, hlt, hat⟩ := List.mem_iff_getElem.mp hmem
      have := (hnumbers r.offset number).mpr (List.getElem?_eq_some_iff.mpr ⟨hlt, hat⟩)
      rw [show ref.word - base = r.offset by omega, this] at hlookup
      cases hlookup
  · rw [if_neg hbase]
    simp only [reduceCtorEq, false_iff]
    rintro ⟨⟨r, _, _, hword⟩, _⟩
    omega

section Mapping
variable {ε α β : Type} {f : α → Except ε β} {g : α → β}

/-- A map that can fail succeeds if it does so everywhere; its values are then those of a total
one. -/
theorem mapM_eq_ok_iff {as : List α} {bs : List β} (hg : ∀ a ∈ as, ∀ b, f a = .ok b → b = g a) :
    as.mapM f = .ok bs ↔ (∀ a ∈ as, ∃ b, f a = .ok b) ∧ bs = as.map g := by
  induction as generalizing bs with
  | nil =>
    simp only [List.mapM_nil, pure_eq_ok_iff, List.map_nil]
    exact ⟨fun h => ⟨fun _ ha => absurd ha List.not_mem_nil, h.symm⟩, fun h => h.2.symm⟩
  | cons a rest ih =>
    obtain ⟨ha, hrest⟩ := List.forall_mem_cons.mp hg
    simp only [List.mapM_cons, bind_eq_ok_iff, pure_eq_ok_iff, ih hrest, List.forall_mem_cons,
      List.map_cons]
    constructor
    · rintro ⟨b, hb, _, ⟨hall, rfl⟩, rfl⟩
      exact ⟨⟨⟨b, hb⟩, hall⟩, by rw [ha b hb]⟩
    · rintro ⟨⟨⟨b, hb⟩, hall⟩, rfl⟩
      exact ⟨b, hb, _, ⟨hall, rfl⟩, by rw [ha b hb]⟩

theorem array_mapM_eq_ok_iff {as : Array α} {bs : Array β}
    (hg : ∀ a ∈ as.toList, ∀ b, f a = .ok b → b = g a) :
    as.mapM f = .ok bs ↔ (∀ a ∈ as.toList, ∃ b, f a = .ok b) ∧ bs = as.map g := by
  simp only [Array.mapM_eq_mapM_toList, map_eq_ok_iff, mapM_eq_ok_iff hg]
  constructor
  · rintro ⟨_, ⟨hall, rfl⟩, rfl⟩
    exact ⟨hall, by rw [← Array.toList_map, Array.toArray_toList]⟩
  · rintro ⟨hall, rfl⟩
    exact ⟨_, ⟨hall, rfl⟩, by rw [← Array.toList_map, Array.toArray_toList]⟩

theorem forM_discard_eq_ok_iff {as : List α} :
    (as.forM fun a => discard (f a)) = .ok () ↔ ∀ a ∈ as, ∃ b, f a = .ok b := by
  induction as with
  | nil => exact iff_of_true rfl fun _ ha => absurd ha List.not_mem_nil
  | cons a rest ih =>
    have hcons : ((a :: rest).forM fun a => discard (f a)) =
        f a >>= fun _ => rest.forM fun a => discard (f a) := by
      cases hf : f a <;> simp only [List.forM, hf] <;> rfl
    rw [hcons, bind_eq_ok_iff, List.forall_mem_cons, ← ih]
    exact ⟨fun ⟨b, hb, hrest⟩ => ⟨⟨b, hb⟩, hrest⟩, fun ⟨⟨b, hb⟩, hrest⟩ => ⟨b, hb, hrest⟩⟩

theorem object_mapM_eq_ok_iff (hg : ∀ a b, f a = .ok b → b = g a) {o : Object α} {o' : Object β}
    (ho : o.Settled) :
    o.mapM f = .ok o' ↔ (∀ a ∈ o.children, ∃ b, f a = .ok b) ∧ o' = o.map g := by
  have hcell : ∀ (a : α) (wrap : β → Object β), (f a >>= fun b => pure (wrap b)) = .ok o' ↔
      (∃ b, f a = .ok b) ∧ o' = wrap (g a) := by
    intro a wrap
    simp only [bind_eq_ok_iff, pure_eq_ok_iff]
    constructor
    · rintro ⟨b, hb, rfl⟩
      exact ⟨⟨b, hb⟩, by rw [hg a b hb]⟩
    · rintro ⟨⟨b, hb⟩, rfl⟩
      exact ⟨b, hb, by rw [hg a b hb]⟩
  cases o with
  | constructor tag fields scalars =>
    simp only [Object.mapM, Object.children, Object.map, bind_eq_ok_iff, pure_eq_ok_iff,
      array_mapM_eq_ok_iff fun a _ => hg a]
    constructor
    · rintro ⟨_, ⟨hall, rfl⟩, rfl⟩
      exact ⟨hall, rfl⟩
    · rintro ⟨hall, rfl⟩
      exact ⟨_, ⟨hall, rfl⟩, rfl⟩
  | array elements =>
    simp only [Object.mapM, Object.children, Object.map, bind_eq_ok_iff, pure_eq_ok_iff,
      array_mapM_eq_ok_iff fun a _ => hg a]
    constructor
    · rintro ⟨_, ⟨hall, rfl⟩, rfl⟩
      exact ⟨hall, rfl⟩
    · rintro ⟨hall, rfl⟩
      exact ⟨_, ⟨hall, rfl⟩, rfl⟩
  | byteArray | string | bigInteger =>
    simp only [Object.mapM, Object.children, Object.map, pure_eq_ok_iff]
    exact ⟨fun h => ⟨fun _ ha => absurd ha List.not_mem_nil, h.symm⟩, fun h => h.2.symm⟩
  | thunk state =>
    cases state with
    | waiting closure => exact ho.elim
    | forced value =>
      simpa [Object.mapM, Object.children, Object.map] using hcell value (.thunk ∘ .forced)
  | task result =>
    cases result with
    | none => exact ho.elim
    | some value =>
      simpa [Object.mapM, Object.children, Object.map] using hcell value (.task ∘ some)
  | promise result =>
    cases result with
    | none => exact ho.elim
    | some value =>
      simpa [Object.mapM, Object.children, Object.map] using hcell value (.promise ∘ some)
  | mutableRef contents =>
    simpa [Object.mapM, Object.children, Object.map] using hcell contents .mutableRef

end Mapping

namespace Record
variable {bytes : Bytes} {r : Record}

/-- Every reference of the record holds a word. -/
def Filled (bytes : Bytes) (r : Record) : Prop := ∀ slot ∈ r.slots, bytes.word slot ≠ 0

theorem object?_eq_none_iff : r.object? bytes = none ↔ r.isTerminator = true := by
  cases hs : r.shape <;> simp [object?, isTerminator, hs]
  cases r.contents? bytes <;> simp

theorem exists_object? (bytes : Bytes) (h : r.isTerminator = false) :
    ∃ o, r.object? bytes = some o := by
  rw [← Option.isSome_iff_exists, Option.isSome_iff_ne_none]
  intro hnone
  rw [object?_eq_none_iff.mp hnone] at h
  cases h

theorem isTerminator_of_object? {o : Object RawRef} (h : r.object? bytes = some o) :
    r.isTerminator = false := by
  rw [← Bool.not_eq_true]
  intro hterminator
  rw [object?_eq_none_iff.mpr hterminator] at h
  cases h

theorem slots_of_isTerminator (h : r.isTerminator = true) : r.slots = [] := by
  simp only [isTerminator, beq_iff_eq] at h
  rw [slots, h]
  rfl

theorem isTerminator_of_mem_slots {slot : Nat} (h : slot ∈ r.slots) : r.isTerminator = false := by
  rw [← Bool.not_eq_true]
  intro hterminator
  rw [slots_of_isTerminator hterminator] at h
  cases h

theorem references_of_object (h : r.isTerminator = false) :
    r.shape.references r.offset = r.slots := by
  cases hs : r.shape <;> simp_all [isTerminator, slots, Shape.slotRange, Shape.references]

theorem contents?_eq_some (hfilled : r.Filled bytes) (hone : r.shape.slotRange.2 = 1) :
    r.contents? bytes = some (r.content bytes) := by
  apply if_neg
  exact hfilled _ (by simp [slots, hone])

theorem object?_of_thunk (hs : r.shape = .thunk) (hfilled : r.Filled bytes) :
    r.object? bytes = some (.thunk (.forced (r.content bytes))) := by
  simp only [object?, hs, contents?_eq_some hfilled (by rw [hs]; rfl)]

theorem object?_of_task (hs : r.shape = .task) (hfilled : r.Filled bytes) :
    r.object? bytes = some (.task (some (r.content bytes))) := by
  simp only [object?, hs, contents?_eq_some hfilled (by rw [hs]; rfl)]

theorem object?_of_promise (hs : r.shape = .promise) (hfilled : r.Filled bytes) :
    r.object? bytes = some (.promise (some (r.content bytes))) := by
  simp only [object?, hs, contents?_eq_some hfilled (by rw [hs]; rfl)]

theorem settled_of_object? {o : Object RawRef} (hfilled : r.Filled bytes)
    (h : r.object? bytes = some o) : o.Settled := by
  cases hs : r.shape with
  | thunk | task | promise =>
    have hcontents := contents?_eq_some hfilled (by rw [hs]; rfl)
    simp only [object?, hs, hcontents, Option.some.injEq] at h
    subst h
    trivial
  | _ =>
    simp only [object?, hs, Option.some.injEq, reduceCtorEq] at h
    all_goals
      subst h
      trivial

theorem children_of_object? {o : Object RawRef} (hfilled : r.Filled bytes)
    (h : r.object? bytes = some o) :
    o.children = (r.shape.references r.offset).map (rawRef bytes) := by
  cases hs : r.shape with
  | thunk | task | promise =>
    have hcontents := contents?_eq_some hfilled (by rw [hs]; rfl)
    simp only [object?, hs, hcontents, Option.some.injEq] at h
    subst h
    simp [Object.children, content, Shape.slotRange, Shape.references, hs]
  | _ =>
    simp only [object?, hs, Option.some.injEq, reduceCtorEq] at h
    all_goals
      subst h
      simp [Object.children, Record.children, content, slots, Shape.slotRange, Shape.references, hs]

theorem root?_eq_some_iff {ref : RawRef} :
    r.root? bytes = some ref ↔ r.isTerminator = true ∧ ref = rawRef bytes (r.offset + 8) := by
  unfold root?
  split <;> rename_i h
  · rw [Option.some.injEq]
    exact ⟨fun hr => ⟨h, hr.symm⟩, fun hr => hr.2.symm⟩
  · simp [h]

theorem references_of_isTerminator (h : r.isTerminator = true) :
    r.shape.references r.offset = [r.offset + 8] := by
  simp only [isTerminator, beq_iff_eq] at h
  rw [h]
  rfl

end Record

section Images
variable {bytes : Bytes} {base first : Nat} {g : ImageGraph} {records : Array Record}

/-- No reference is zero, as it is an address of a record if it is even. -/
theorem IsReference.ne_zero {all : List Record} {word : Nat} (h : IsReference base all word)
    (htiling : Tiling bytes base 16 all) : word ≠ 0 := by
  rintro rfl
  rcases h with hodd | ⟨r, hr, _, hword⟩
  · cases hodd
  · have hoffset := htiling.le_offset r hr
    omega

theorem Tiling.filled {all : List Record} {r : Record} (h : Tiling bytes base 16 all)
    (hrefs : ∀ slot ∈ r.shape.references r.offset, IsReference base all (bytes.word slot)) :
    r.Filled bytes := by
  intro slot hslot
  have hobject := Record.isTerminator_of_mem_slots hslot
  rw [← Record.references_of_object hobject] at hslot
  exact (hrefs slot hslot).ne_zero h

theorem IsImage.filled {all : List Record} {r : Record} (h : IsImage bytes base all)
    (hr : r ∈ all) : r.Filled bytes :=
  h.tiling.filled (h.references r hr)

theorem resolvable_roots_iff (bytes : Bytes) (records : Array Record)
    {f : RawRef → Except Corruption Value} :
    (∀ ref ∈ (records.filterMap (Record.root? bytes)).toList, ∃ v, f ref = .ok v) ↔
      ∀ r ∈ records.toList, r.isTerminator = true → ∀ slot ∈ r.shape.references r.offset,
        ∃ v, f (Record.rawRef bytes slot) = .ok v := by
  simp only [Array.toList_filterMap, List.mem_filterMap, Record.root?_eq_some_iff]
  constructor
  · intro h r hr hroot slot hslot
    rw [Record.references_of_isTerminator hroot, List.mem_singleton] at hslot
    subst hslot
    exact h _ ⟨r, hr, hroot, rfl⟩
  · rintro h _ ⟨r, hr, hroot, rfl⟩
    exact h r hr hroot _ (by simp [Record.references_of_isTerminator hroot])

/-- If all references of objects can be resolved, then so can the objects. -/
theorem objects_mapM_eq {f : RawRef → Except Corruption Value} {value : RawRef → Value}
    (hvalue : ∀ ref v, f ref = .ok v → v = value ref)
    (hfilled : ∀ r ∈ records.toList, r.Filled bytes)
    (hslots : ∀ slot ∈ records.toList.flatMap Record.slots,
      ∃ v, f (Record.rawRef bytes slot) = .ok v) :
    ((records.filterMap (Record.object? bytes)).mapM fun o => o.mapM f) =
      .ok ((records.filterMap (Record.object? bytes)).map (Object.map value)) := by
  have hobject : ∀ o ∈ (records.filterMap (Record.object? bytes)).toList,
      o.mapM f = .ok (o.map value) := by
    intro o ho
    rw [Array.toList_filterMap, List.mem_filterMap] at ho
    obtain ⟨r, hr, ho⟩ := ho
    have hterminator := Record.isTerminator_of_object? ho
    refine (object_mapM_eq_ok_iff hvalue (Record.settled_of_object? (hfilled r hr) ho)).mpr ⟨?_, rfl⟩
    intro ref href
    rw [Record.children_of_object? (hfilled r hr) ho, Record.references_of_object hterminator] at href
    obtain ⟨slot, hslot, rfl⟩ := List.mem_map.mp href
    exact hslots slot (List.mem_flatMap.mpr ⟨r, hr, hslot⟩)
  refine (array_mapM_eq_ok_iff fun o ho o' ho' => ?_).mpr ⟨fun o ho => ⟨_, hobject o ho⟩, rfl⟩
  rw [hobject o ho] at ho'
  exact (Except.ok.inj ho').symm

theorem resolveAll_eq_ok_iff (htiling : Tiling bytes base 16 records.toList) :
    resolveAll bytes base first records = .ok g ↔
      (∀ r ∈ records.toList, ∀ slot ∈ r.shape.references r.offset,
        IsReference base records.toList (bytes.word slot)) ∧
      g = imageGraph bytes base first records.toList := by
  have hd := htiling.nodup_offsets
  let resolve : RawRef → Except Corruption Value :=
    RawRef.resolve (RecordIndex.ofRecords records) base first
  let value : RawRef → Value := fun ref => wordValue base first records.toList ref.word
  have hvalue : ∀ ref v, resolve ref = .ok v → v = value ref := by
    intro ref v hv
    exact ((resolve_eq_ok_iff hd).mp hv).2
  have hsome : ∀ slot, (∃ v, resolve (Record.rawRef bytes slot) = .ok v) ↔
      IsReference base records.toList (bytes.word slot) := by
    intro slot
    exact ⟨fun ⟨v, hv⟩ => ((resolve_eq_ok_iff hd).mp hv).1,
      fun h => ⟨_, (resolve_eq_ok_iff hd).mpr ⟨h, rfl⟩⟩⟩
  have hobjects : (∀ slot ∈ records.toList.flatMap Record.slots,
      ∃ v, resolve (Record.rawRef bytes slot) = .ok v) → _ := fun hslots =>
    objects_mapM_eq hvalue (fun r hr slot hslot =>
      ((hsome slot).mp (hslots slot (List.mem_flatMap.mpr ⟨r, hr, hslot⟩))).ne_zero htiling) hslots
  have hgraph : imageGraph bytes base first records.toList =
      ⟨(records.filterMap (Record.object? bytes)).map (Object.map value),
        (records.filterMap (Record.root? bytes)).map value⟩ := by
    simp only [imageGraph, ← Array.toList_filterMap, ← Array.toList_map, Array.toArray_toList]
    rfl
  simp only [resolveAll, bind_eq_ok_iff, pure_eq_ok_iff]
  constructor
  · rintro ⟨_, hchecked, roots, hr, objects, ho, rfl⟩
    have hslots := forM_discard_eq_ok_iff.mp hchecked
    obtain ⟨hallRoots, rfl⟩ := (array_mapM_eq_ok_iff fun ref _ => hvalue ref).mp hr
    obtain rfl := Except.ok.inj (ho.symm.trans (hobjects hslots))
    refine ⟨fun r hr slot hslot => (hsome slot).mp ?_, hgraph.symm⟩
    cases hterminator : r.isTerminator with
    | false =>
      rw [Record.references_of_object hterminator] at hslot
      exact hslots slot (List.mem_flatMap.mpr ⟨r, hr, hslot⟩)
    | true => exact (resolvable_roots_iff bytes records).mp hallRoots r hr hterminator slot hslot
  · rintro ⟨hall, rfl⟩
    have hslots : ∀ slot ∈ records.toList.flatMap Record.slots,
        ∃ v, resolve (Record.rawRef bytes slot) = .ok v := by
      intro slot hslot
      obtain ⟨r, hr, hmem⟩ := List.mem_flatMap.mp hslot
      refine (hsome slot).mpr (hall r hr slot ?_)
      rwa [Record.references_of_object (Record.isTerminator_of_mem_slots hmem)]
    have hallRoots := (resolvable_roots_iff bytes records).mpr
      fun r hr _ slot hslot => (hsome slot).mpr (hall r hr slot hslot)
    exact ⟨(), forM_discard_eq_ok_iff.mpr hslots, _,
      (array_mapM_eq_ok_iff fun ref _ => hvalue ref).mpr ⟨hallRoots, rfl⟩, _, hobjects hslots,
      hgraph.symm⟩

theorem Bytes.checkHeader_eq_ok_iff {declared : Nat} {aligned : Bool} :
    bytes.checkHeader declared aligned = .ok () ↔ aligned = true ∧ bytes.size % 8 = 0 ∧
      16 ≤ bytes.size ∧ bytes.word 0 = magic ∧ bytes.word 8 = declared ∧ declared % 8 = 0 := by
  unfold Bytes.checkHeader headerSize
  cases aligned with
  | false => simp
  | true =>
    by_cases hsize : bytes.size % 8 = 0
    · by_cases hmagic : 16 ≤ bytes.size ∧ bytes.word 0 = magic
      · simp only [hsize, hmagic.2, Nat.not_lt.mpr hmagic.1]
        by_cases hbase : bytes.word 8 % 8 = 0 <;> by_cases heq : bytes.word 8 = declared <;>
          simp_all
      · have : (decide (bytes.size < 16) || bytes.word 0 != magic) = true := by
          simp only [Bool.or_eq_true, decide_eq_true_eq, bne_iff_ne]
          omega
        simp [hsize, this]
        omega
    · simp [hsize]

theorem Bytes.tiling_of_records (hheader : 16 ≤ bytes.size)
    (h : bytes.records base = .ok records) :
    Tiling bytes base 16 records.toList ∧
      ∃ r, records.toList.getLast? = some r ∧ r.isTerminator = true := by
  unfold Bytes.records at h
  split at h
  · cases h
  · rename_i all hall
    split at h
    · rename_i hlast
      cases h
      obtain ⟨rest, rfl, htiling⟩ := tiling_of_recordsFrom hheader hall
      rw [Option.any_eq_true, ← Array.getLast?_toList] at hlast
      exact ⟨by simpa using htiling, hlast⟩
    · cases h

theorem Bytes.records_of_tiling {all : List Record} (hlimit : bytes.size < wordLimit)
    (h : Tiling bytes base 16 all) (hlast : ∃ r, all.getLast? = some r ∧ r.isTerminator = true) :
    bytes.records base = .ok all.toArray := by
  unfold Bytes.records headerSize
  rw [recordsFrom_of_tiling hlimit h, Array.empty_append]
  dsimp only
  rw [← Array.getLast?_toList, if_pos (Option.any_eq_true _ _ |>.mpr hlast)]

/-- What has been read is an image, and the graph is the one that it holds. -/
theorem isImage_of_load {declared : UInt64} {aligned : Bool}
    (h : bytes.load declared aligned first = .ok g) :
    ∃ all, IsImage bytes declared.toNat all ∧ g = imageGraph bytes declared.toNat first all := by
  simp only [Bytes.load, bind_eq_ok_iff] at h
  obtain ⟨_, hheader, records, hrecords, hgraph⟩ := h
  obtain ⟨_, haligned, hsize, hmagic, hbase, hbaseAligned⟩ := Bytes.checkHeader_eq_ok_iff.mp hheader
  obtain ⟨htiling, hlast⟩ := Bytes.tiling_of_records hsize hrecords
  obtain ⟨hreferences, rfl⟩ := (resolveAll_eq_ok_iff htiling).mp hgraph
  exact ⟨records.toList, ⟨haligned, hsize, hmagic, hbase, hbaseAligned, htiling, hlast,
    hreferences⟩, rfl⟩

theorem load_of_isImage {declared : UInt64} {all : List Record} (hlimit : bytes.size < wordLimit)
    (h : IsImage bytes declared.toNat all) :
    bytes.load declared true first = .ok (imageGraph bytes declared.toNat first all) := by
  have hheader : bytes.checkHeader declared.toNat true = .ok () :=
    Bytes.checkHeader_eq_ok_iff.mpr
      ⟨rfl, h.aligned, h.header, h.magic_eq, h.base_eq, h.base_aligned⟩
  have hrecords := Bytes.records_of_tiling hlimit h.tiling h.closed
  simp only [Bytes.load, bind_eq_ok_iff]
  refine ⟨(), hheader, all.toArray, hrecords, ?_⟩
  exact (resolveAll_eq_ok_iff (by simpa using h.tiling)).mpr
    ⟨by simpa using h.references, by simp⟩

/-- Bytes that fit into the address space are read exactly if they are an image. -/
theorem exists_load_eq_ok_iff (bytes : Bytes) (declared : UInt64) (first : Nat)
    (hlimit : bytes.size < wordLimit) :
    (∃ g, bytes.load declared true first = .ok g) ↔
      ∃ records, IsImage bytes declared.toNat records := by
  constructor
  · rintro ⟨g, hg⟩
    obtain ⟨records, himage, _⟩ := isImage_of_load hg
    exact ⟨records, himage⟩
  · rintro ⟨records, himage⟩
    exact ⟨_, load_of_isImage hlimit himage⟩

end Images

/-- A constructor whose fields are itself and a string; it is the only root. -/
def knot : Bytes :=
  (leBytes 8 magic ++ leBytes 8 4096 ++
    (leBytes 4 0 ++ leBytes 4 (16 * 7) ++ leBytes 8 2 ++ leBytes 8 3 ++
      leBytes 8 (4096 + 16) ++ leBytes 8 (4096 + 64) ++ [1, 2, 3, 0, 0, 0, 0, 0]) ++
    (leBytes 4 0 ++ leBytes 4 3 ++ leBytes 8 2 ++ [104, 105, 0, 0, 0, 0, 0, 0]) ++
    (leBytes 4 0 ++ leBytes 4 15 ++ leBytes 8 (4096 + 16))).toArray

set_option maxRecDepth 4096 in
theorem load_knot : knot.load 4096 true 0 =
    .ok ⟨#[.constructor 7 #[.object 0, .object 1] #[1, 2, 3], .string #[104, 105]],
      #[.object 0]⟩ := by
  cbv

theorem knot_isImage : knot.size < wordLimit ∧ ∃ records, IsImage knot 4096 records :=
  ⟨by decide, (exists_load_eq_ok_iff knot 4096 0 (by decide)).mp ⟨_, load_knot⟩⟩

end HeapImage
