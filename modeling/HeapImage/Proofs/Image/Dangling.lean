import HeapImage.Proofs.Image.Resolution

/-!
# The first dangling reference

An image whose records are right may still hold words that denote no record. The reader reports the
first of them: those of objects first, in the order of their offsets, and then those of roots.
-/

namespace HeapImage
set_option autoImplicit false

instance (base : Nat) (records : List Record) (word : Nat) :
    Decidable (IsReference base records word) :=
  inferInstanceAs (Decidable (_ ∨ _))

section Places
variable {records : List Record} {r : Record} {slot : Nat}

def rootSlots (records : List Record) : List Nat :=
  ((records.filter Record.isTerminator).map Record.offset).map (· + 8)

theorem mem_rootSlots : slot ∈ rootSlots records ↔
    ∃ r ∈ records, r.isTerminator = true ∧ r.offset + 8 = slot := by
  simp [rootSlots, and_assoc]

theorem mem_references (hr : r ∈ records) (hslot : slot ∈ r.shape.references r.offset) :
    slot ∈ records.flatMap Record.slots ++ rootSlots records := by
  cases hterminator : r.isTerminator with
  | false =>
    rw [Record.references_of_object hterminator] at hslot
    exact List.mem_append_left _ (List.mem_flatMap.mpr ⟨r, hr, hslot⟩)
  | true =>
    rw [Record.references_of_isTerminator hterminator, List.mem_singleton] at hslot
    exact List.mem_append_right _ (mem_rootSlots.mpr ⟨r, hr, hterminator, hslot.symm⟩)

end Places

/-- The causes to refuse an image for the words at some offsets. -/
def danglings (base : Nat) (records : List Record) (memory : Bytes) (slots : List Nat) :
    List Corruption :=
  slots.filterMap fun slot =>
    if IsReference base records (memory.word slot) then none
    else some (.dangling slot (memory.word slot))

section Danglings
variable {memory first second : Bytes} {base slot word : Nat} {xs ys slots : List Nat}
variable {records : List Record}

theorem danglings_congr (h : ∀ slot ∈ slots, first.word slot = second.word slot) :
    danglings base records first slots = danglings base records second slots := by
  apply List.filterMap_congr
  intro slot hslot
  rw [h slot hslot]

theorem danglings_append :
    danglings base records memory (xs ++ ys) =
      danglings base records memory xs ++ danglings base records memory ys :=
  List.filterMap_append

theorem danglings_cons_of_isReference (hword : memory.word slot = word)
    (h : IsReference base records word) :
    danglings base records memory (slot :: slots) = danglings base records memory slots := by
  apply List.filterMap_cons_none
  rw [hword, if_pos h]

theorem danglings_cons_of_not_isReference (hword : memory.word slot = word)
    (h : ¬IsReference base records word) :
    danglings base records memory (slot :: slots) =
      .dangling slot word :: danglings base records memory slots := by
  apply List.filterMap_cons_some
  rw [hword, if_neg h]

end Danglings

section Errors
variable {ε α β : Type}

def errorOf? : Except ε α → Option ε
  | .error e => some e
  | .ok _ => none

theorem errorOf?_map (f : α → β) (x : Except ε α) : errorOf? (f <$> x) = errorOf? x := by
  cases x <;> rfl

theorem errorOf?_discard (x : Except ε α) : errorOf? (discard x) = errorOf? x := by
  cases x <;> rfl

theorem errorOf?_bind (x : Except ε α) (f : α → Except ε β) {e : Option ε}
    (hf : ∀ a, x = .ok a → errorOf? (f a) = e) : errorOf? (x >>= f) = (errorOf? x).or e := by
  cases x with
  | error e' => rfl
  | ok a => exact hf a rfl

/-- A check of all parts reports the first error. -/
theorem errorOf?_forM (f : α → Except ε PUnit) (as : List α) :
    errorOf? (as.forM f) = (as.filterMap fun a => errorOf? (f a)).head? := by
  induction as with
  | nil => rfl
  | cons a rest ih =>
    refine (errorOf?_bind (f a) (fun _ => rest.forM f) fun _ _ => ih).trans ?_
    cases h : errorOf? (f a) <;> simp [h]

theorem errorOf?_array_mapM (f : α → Except ε β) (as : Array α) :
    errorOf? (as.mapM f) = (as.toList.filterMap fun a => errorOf? (f a)).head? := by
  rw [Array.mapM_eq_mapM_toList, errorOf?_map]
  induction as.toList with
  | nil => rfl
  | cons a rest ih =>
    rw [List.mapM_cons]
    refine (errorOf?_bind (f a) _ fun b _ => (errorOf?_map (b :: ·) (rest.mapM f)).trans ih).trans ?_
    cases h : errorOf? (f a) <;> simp [h]

end Errors

section Reader
variable {bytes : Bytes} {base first : Nat} {records : Array Record}

theorem errorOf?_resolve (hd : (records.toList.map Record.offset).Nodup) (ref : RawRef) :
    errorOf? (ref.resolve (RecordIndex.ofRecords records) base first) =
      if IsReference base records.toList ref.word then none
      else some (.dangling ref.slot ref.word) := by
  split
  · rename_i href
    rw [(resolve_eq_ok_iff hd).mpr ⟨href, rfl⟩]
    rfl
  · rename_i href
    have hodd : ref.word % 2 ≠ 1 := fun hodd => href (.inl hodd)
    cases hresolve : ref.resolve (RecordIndex.ofRecords records) base first with
    | ok v => exact absurd ((resolve_eq_ok_iff hd).mp hresolve).1 href
    | error e =>
      rw [RawRef.resolve, if_neg hodd] at hresolve
      split at hresolve
      · split at hresolve
        · cases hresolve
        · rw [← Except.error.inj hresolve]
          rfl
      · rw [← Except.error.inj hresolve]
        rfl

theorem roots_of_records (bytes : Bytes) (records : List Record) :
    records.filterMap (Record.root? bytes) = (rootSlots records).map (Record.rawRef bytes) := by
  induction records with
  | nil => rfl
  | cons r rest ih =>
    cases hr : r.isTerminator with
    | true =>
      have hsome : r.root? bytes = some (Record.rawRef bytes (r.offset + 8)) :=
        Record.root?_eq_some_iff.mpr ⟨hr, rfl⟩
      rw [List.filterMap_cons_some hsome, ih, rootSlots, rootSlots, List.filter_cons_of_pos hr]
      rfl
    | false =>
      have hnone : r.root? bytes = none := by simp [Record.root?, hr]
      rw [List.filterMap_cons_none hnone, ih, rootSlots, rootSlots,
        List.filter_cons_of_neg (by simp [hr])]

theorem toList_roots_imageGraph (bytes : Bytes) (base first : Nat) (records : List Record) :
    (imageGraph bytes base first records).roots.toList =
      (rootSlots records).map fun slot => wordValue base first records (bytes.word slot) := by
  simp only [imageGraph, roots_of_records, List.map_map, Function.comp_def, Record.rawRef]

/-- The reader reports the first reference that denotes no record; roots come last. By then the
objects can be read. -/
theorem errorOf?_resolveAll (htiling : Tiling bytes base 16 records.toList) :
    errorOf? (resolveAll bytes base first records) =
      (danglings base records.toList bytes
        (records.toList.flatMap Record.slots ++ rootSlots records.toList)).head? := by
  have hd := htiling.nodup_offsets
  have hresolve : ∀ ref : RawRef,
      errorOf? (ref.resolve (RecordIndex.ofRecords records) base first) = _ := errorOf?_resolve hd
  have hvalue : ∀ (ref : RawRef) v,
      ref.resolve (RecordIndex.ofRecords records) base first = .ok v → _ ∧ v = _ :=
    fun ref v => (resolve_eq_ok_iff hd).mp
  unfold resolveAll
  dsimp only
  generalize RawRef.resolve (RecordIndex.ofRecords records) base first = resolve at hresolve hvalue
  have hcauses : ∀ slots : List Nat,
      (slots.filterMap fun slot => errorOf? (resolve (Record.rawRef bytes slot))) =
        danglings base records.toList bytes slots :=
    fun slots => List.filterMap_congr fun slot _ => hresolve (Record.rawRef bytes slot)
  have hslots : errorOf? ((records.toList.flatMap Record.slots).forM fun slot =>
      discard (resolve (Record.rawRef bytes slot))) =
        (danglings base records.toList bytes (records.toList.flatMap Record.slots)).head? := by
    simp only [errorOf?_forM, errorOf?_discard, hcauses]
  have hroots : errorOf? ((records.filterMap (Record.root? bytes)).mapM resolve) =
      (danglings base records.toList bytes (rootSlots records.toList)).head? := by
    rw [errorOf?_array_mapM, Array.toList_filterMap, roots_of_records, List.filterMap_map]
    exact congrArg List.head? (hcauses _)
  rw [danglings_append, List.head?_append, ← hslots, ← hroots]
  refine errorOf?_bind _ _ fun _ hchecked => ?_
  have hall := forM_discard_eq_ok_iff.mp hchecked
  have hfilled : ∀ r ∈ records.toList, r.Filled bytes := by
    intro r hr slot hslot
    obtain ⟨v, hv⟩ := hall slot (List.mem_flatMap.mpr ⟨r, hr, hslot⟩)
    exact (hvalue _ v hv).1.ne_zero htiling
  rw [objects_mapM_eq (fun ref v hv => (hvalue ref v hv).2) hfilled hall]
  exact errorOf?_map _ ((records.filterMap (Record.root? bytes)).mapM resolve)

theorem danglings_of_error {cause : Corruption} (htiling : Tiling bytes base 16 records.toList)
    (h : resolveAll bytes base first records = .error cause) :
    ∃ others, danglings base records.toList bytes
      (records.toList.flatMap Record.slots ++ rootSlots records.toList) = cause :: others := by
  rw [← List.head?_eq_some_iff, ← errorOf?_resolveAll htiling, h]
  rfl

theorem danglings_of_ok {g : ImageGraph} (htiling : Tiling bytes base 16 records.toList)
    (h : resolveAll bytes base first records = .ok g) :
    danglings base records.toList bytes
      (records.toList.flatMap Record.slots ++ rootSlots records.toList) = [] := by
  rw [← List.head?_eq_none_iff, ← errorOf?_resolveAll htiling, h]
  rfl

end Reader
end HeapImage
