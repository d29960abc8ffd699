import HeapImage.Proofs.Image.Resolution

/-!
# Causes

An image is rejected for its header or for its records, and the causes are different ones. So a
cause says by itself how far the reader has got.
-/

namespace HeapImage
set_option autoImplicit false

/-- Causes that are found before any record is looked at. -/
def Corruption.OfHeader : Corruption → Prop
  | misaligned | badMagic | baseMismatch .. => True
  | _ => False

def PastHeader {α : Type} (x : Except Corruption α) : Prop :=
  ∀ cause, x = .error cause → ¬ cause.OfHeader

section Except
variable {α β : Type}

theorem pastHeader_ok (a : α) : PastHeader (.ok a : Except Corruption α) := nofun

theorem pastHeader_error {cause : Corruption} (h : ¬ cause.OfHeader) :
    PastHeader (.error cause : Except Corruption α) := by
  intro other hother
  cases hother
  exact h

theorem PastHeader.bind {x : Except Corruption α} {f : α → Except Corruption β}
    (hx : PastHeader x) (hf : ∀ a, PastHeader (f a)) : PastHeader (x >>= f) := by
  cases x with
  | error cause => exact pastHeader_error (hx cause rfl)
  | ok a => exact hf a

theorem PastHeader.map {x : Except Corruption α} (hx : PastHeader x) (f : α → β) :
    PastHeader (f <$> x) := by
  cases x with
  | error cause => exact pastHeader_error (hx cause rfl)
  | ok a => exact pastHeader_ok (f a)

theorem PastHeader.discard {x : Except Corruption α} (hx : PastHeader x) :
    PastHeader (discard x) := by
  cases x with
  | error cause => exact pastHeader_error (hx cause rfl)
  | ok a => exact pastHeader_ok ()

theorem pastHeader_mapM {f : α → Except Corruption β} (hf : ∀ a, PastHeader (f a))
    (as : Array α) : PastHeader (as.mapM f) := by
  rw [Array.mapM_eq_mapM_toList]
  apply PastHeader.map
  generalize as.toList = list
  induction list with
  | nil => exact pastHeader_ok []
  | cons a rest ih =>
    rw [List.mapM_cons]
    exact (hf a).bind fun b => ih.bind fun bs => pastHeader_ok (b :: bs)

theorem pastHeader_forM {f : α → Except Corruption PUnit} (hf : ∀ a, PastHeader (f a))
    (as : List α) : PastHeader (as.forM f) := by
  induction as with
  | nil => exact pastHeader_ok ()
  | cons a rest ih => exact (hf a).bind fun _ => ih

end Except

section Reading
variable (bytes : Bytes) (base : Nat)

theorem pastHeader_recordWord (pos offset : Nat) : PastHeader (bytes.recordWord pos offset) := by
  rw [Bytes.recordWord]
  split
  · exact pastHeader_ok _
  · exact pastHeader_error id

theorem pastHeader_shapeAt (pos tag extra : Nat) :
    PastHeader (bytes.shapeAt base pos tag extra) := by
  have hword := pastHeader_recordWord bytes pos
  unfold Bytes.shapeAt
  split
  · exact (hword 8).bind fun _ => (hword 16).bind fun _ => pastHeader_ok _
  · exact (hword 8).bind fun _ => pastHeader_ok _
  · exact (hword 8).bind fun _ => pastHeader_ok _
  · exact (hword 8).bind fun _ => pastHeader_ok _
  · refine (hword 16).bind fun closure => ?_
    split
    · exact pastHeader_ok _
    · exact pastHeader_error id
  · exact pastHeader_ok _
  · exact pastHeader_ok _
  · exact pastHeader_ok _
  · refine (hword 16).bind fun length => (hword 8).bind fun limbs => ?_
    split
    · exact pastHeader_error id
    · split
      · exact pastHeader_error id
      · exact pastHeader_ok _
  · exact pastHeader_ok _
  · exact pastHeader_error id

theorem pastHeader_recordAt (pos : Nat) : PastHeader (bytes.recordAt base pos) := by
  have hshape := pastHeader_shapeAt bytes base pos
  unfold Bytes.recordAt
  dsimp only
  split
  · exact pastHeader_error id
  · split
    · rename_i cause hcause
      exact pastHeader_error (hshape _ _ cause hcause)
    · split
      · split
        · split
          · exact pastHeader_ok _
          · exact pastHeader_error id
        · exact pastHeader_error id
      · exact pastHeader_error id

theorem pastHeader_recordsFrom (pos : Nat) (found : Array Record) :
    PastHeader (bytes.recordsFrom base pos found) := by
  fun_induction Bytes.recordsFrom bytes base pos found with
  | case1 pos found _ cause hcause =>
    exact pastHeader_error (pastHeader_recordAt bytes base pos cause hcause)
  | case2 pos found _ r _ ih => exact ih
  | case3 pos found _ => exact pastHeader_ok found

theorem pastHeader_records : PastHeader (bytes.records base) := by
  have hfrom := pastHeader_recordsFrom bytes base headerSize #[]
  unfold Bytes.records
  split
  · rename_i cause hcause
    exact pastHeader_error (hfrom cause hcause)
  · split
    · exact pastHeader_ok _
    · exact pastHeader_error id

theorem pastHeader_resolve (index : RecordIndex) (first : Nat) (ref : RawRef) :
    PastHeader (ref.resolve index base first) := by
  unfold RawRef.resolve
  split
  · exact pastHeader_ok _
  · split
    · split
      · exact pastHeader_ok _
      · exact pastHeader_error id
    · exact pastHeader_error id

theorem pastHeader_object_mapM {ρ σ : Type} {f : ρ → Except Corruption σ}
    (hf : ∀ x, PastHeader (f x)) (o : Object ρ) : PastHeader (o.mapM f) := by
  cases o with
  | constructor tag fields scalars =>
    exact (pastHeader_mapM hf fields).bind fun _ => pastHeader_ok _
  | array elements => exact (pastHeader_mapM hf elements).bind fun _ => pastHeader_ok _
  | byteArray elemSize data => exact pastHeader_ok _
  | string data => exact pastHeader_ok _
  | thunk state =>
    cases state with
    | waiting closure => exact (hf closure).bind fun _ => pastHeader_ok _
    | forced value => exact (hf value).bind fun _ => pastHeader_ok _
  | task result =>
    cases result with
    | none => exact pastHeader_ok _
    | some value => exact (hf value).bind fun _ => pastHeader_ok _
  | promise result =>
    cases result with
    | none => exact pastHeader_ok _
    | some value => exact (hf value).bind fun _ => pastHeader_ok _
  | mutableRef contents => exact (hf contents).bind fun _ => pastHeader_ok _
  | bigInteger value => exact pastHeader_ok _

theorem pastHeader_resolveAll (first : Nat) (records : Array Record) :
    PastHeader (resolveAll bytes base first records) := by
  have hresolve := pastHeader_resolve base (.ofRecords records) first
  unfold resolveAll
  dsimp only
  refine PastHeader.bind ?_ fun _ => PastHeader.bind ?_ fun _ => PastHeader.bind ?_ fun _ => ?_
  · exact pastHeader_forM (fun slot => (hresolve _).discard) _
  · exact pastHeader_mapM hresolve _
  · exact pastHeader_mapM (pastHeader_object_mapM hresolve) _
  · exact pastHeader_ok _

end Reading

/-- A cause that belongs to the header is reported only if the header is rejected for it. -/
theorem load_eq_error_iff {bytes : Bytes} {declared : UInt64} {aligned : Bool} {first : Nat}
    {cause : Corruption} (hcause : cause.OfHeader) :
    bytes.load declared aligned first = .error cause ↔
      bytes.checkHeader declared.toNat aligned = .error cause := by
  rw [Bytes.load]
  cases hcheck : bytes.checkHeader declared.toNat aligned with
  | error other =>
    constructor <;>
    · intro h
      cases h
      rfl
  | ok u =>
    have hpast : PastHeader (bytes.records declared.toNat >>= fun records =>
        resolveAll bytes declared.toNat first records) :=
      (pastHeader_records bytes declared.toNat).bind fun records =>
        pastHeader_resolveAll bytes declared.toNat first records
    constructor
    · intro h
      exact absurd hcause (hpast cause h)
    · intro h
      cases h

end HeapImage
