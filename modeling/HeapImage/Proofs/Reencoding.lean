import HeapImage.Proofs.Heap.Made
import HeapImage.Proofs.RoundTrip
import HeapImage.Proofs.Writer.Lockstep

/-!
# Writing again what was read

An image is written again to the same bytes. The first writer may have failed in between, and the
objects may have changed after they were copied; the second one finds all of them in one heap, as
they were read. It takes the steps of the calls that succeeded in lockstep with the first one.
-/

namespace HeapImage
set_option autoImplicit false

namespace Writer

def HasCopied (w : Writer) (id : Nat) : Prop := ∃ word, w.copied[id]? = some word

/-- Under the map the heap has all that the writer has copied, each object as it was then. Objects
with one stored reference are one in the heap, and only equal leaves that are shared are. -/
structure ReadInto (w : Writer) (orig : Nat → Object Value) (m : Nat → Nat) (h : Heap) : Prop where
  wellFormed : h.WellFormed
  lt_size : ∀ id, w.HasCopied id → m id < h.size
  object_eq : ∀ id, w.HasCopied id → h.object (m id) = (orig id).map (Value.mapId m)
  same : ∀ a b word : Nat, w.copied[a]? = some word → w.copied[b]? = some word → m a = m b
  merged : ∀ a b, w.HasCopied a → w.HasCopied b → m a = m b →
    a = b ∨ w.sharing = true ∧ (orig a).isLeaf = true ∧ orig a = orig b

section Reading
variable {w : Writer} {hash : ContentHash} {orig : Nat → Object Value} {layout : List Entry}
variable {f : Nat → Nat} {roots : List Value}

theorem Holding.readInto (hw : Holding w hash orig roots layout f) (hne : roots ≠ []) {h : Heap}
    {g : ImageGraph}
    (hg : g = imageGraph w.data w.base.toNat h.size (recordsOf headerSize layout))
    (hwell : (h.adopt g.objects).WellFormed) :
    w.ReadInto orig (w.loadedId layout h.size) (h.adopt g.objects) := by
  have hat : ∀ {id : Nat}, w.HasCopied id → ∃ off, w.CopiedAt orig layout id off := by
    intro id hid
    obtain ⟨_, hc⟩ := hid
    exact hw.copiedAt hc
  refine ⟨hwell, ?_, ?_, ?_, ?_⟩
  · intro id hid
    obtain ⟨off, hc⟩ := hat hid
    have hlt := (hw.entry_loadedId hne hg hc).1
    rw [loadedId_eq layout h.size hc.1, Heap.size_adopt]
    exact Nat.add_lt_add_left hlt _
  · intro id hid
    obtain ⟨off, hc⟩ := hat hid
    rw [Heap.object, (hw.entry_loadedId hne hg hc).2]
  · intro a b word ha hb
    obtain ⟨off, _, rfl, _⟩ := hw.laid.copied a word ha
    rw [loadedId_eq layout h.size ha, loadedId_eq layout h.size hb]
  · intro a b ha hb heq
    obtain ⟨offA, ha⟩ := hat ha
    obtain ⟨offB, hb⟩ := hat hb
    by_cases hab : a = b
    · exact .inl hab
    · have hoff := (loadedId_eq_iff_of_copiedAt layout h.size ha hb).mp heq
      exact .inr ((hw.laid.eq_iff_of_copiedAt ha hb hab).mp hoff)

end Reading

section Again
variable {m : Nat → Nat} {hash hash' : ContentHash} {w w' : Writer} {h h' : Heap}
variable {orig : Nat → Object Value} {roots : List Value} {layout : List Entry}
variable {f : Nat → Nat} {root : Value} {calls : List (Heap × Value)}

theorem ReadInto.earlier {v : Writer} {before : Nat → Object Value} (hr : w.ReadInto orig m h')
    (hgrown : w.GrownFrom v) (horig : ∀ id, v.HasCopied id → orig id = before id) :
    v.ReadInto before m h' := by
  have hlater : ∀ {id : Nat}, v.HasCopied id → w.HasCopied id := by
    intro id hid
    obtain ⟨word, hc⟩ := hid
    exact ⟨word, hgrown.copied id word hc⟩
  refine ⟨hr.wellFormed, fun id hid => hr.lt_size id (hlater hid), ?_, ?_, ?_⟩
  · intro id hid
    rw [hr.object_eq id (hlater hid), horig id hid]
  · intro a b word ha hb
    exact hr.same a b word (hgrown.copied a word ha) (hgrown.copied b word hb)
  · intro a b ha hb heq
    have hmerged := hr.merged a b (hlater ha) (hlater hb) heq
    rwa [horig a ha, horig b hb, hgrown.sharing] at hmerged

/-- What a call that succeeds can meet is in the heap that was read as the call has found it. -/
theorem ReadInto.matched (hr : (w.compact hash h root).1.ReadInto (w.view orig h) m h')
    (w' : Writer) (hh : h.WellFormed) (hrest : w.AtRest)
    (hnext : Holding (w.compact hash h root).1 hash (w.view orig h) roots layout f) :
    h.Matched m (w.compact hash h root).1.HasCopied w.sharing h' (w.view orig h) h'.object
      w.copied w'.copied := by
  have hleft := supplies_view hh w orig
  refine ⟨hleft, ⟨hr.wellFormed, fun _ _ _ => rfl⟩, fun id hid _ => hr.lt_size id hid, ?_, ?_, ?_⟩
  · intro id hid hlt hnew
    rw [hr.object_eq id hid, ← hleft.object_eq id hlt hnew]
    exact Object.renamed_map m _
  · intro id hid hlt hnew child hchild
    obtain ⟨_, hc⟩ := hid
    obtain ⟨off, hat⟩ := hnext.copiedAt hc
    rw [Heap.mem_objectChildren, hleft.object_eq id hlt hnew] at hchild
    obtain ⟨_, hchild, _⟩ := hnext.copiedAt_of_child hat hchild
    exact ⟨_, hchild⟩
  · intro a b ha hb heq
    rw [← (hrest.grownFrom_compact hash h root).sharing]
    exact hr.merged a b ha hb heq

theorem Abreast.before (hab : Abreast m w.HasCopied hash hash' orig h'.object w w') (h : Heap)
    (root : Value) : Abreast m (w.compact hash h root).1.HasCopied hash hash' (w.view orig h)
      h'.object w w' :=
  (hab.view_left h).congr (fun _ _ _ => rfl) (fun _ _ _ => rfl) fun id word hc =>
    ⟨word, (hab.left.grownFrom_compact hash h root).copied id word hc⟩

theorem Abreast.compact_again (hab : Abreast m w.HasCopied hash hash' orig h'.object w w')
    (hw : Holding w hash orig roots layout f) (hh : h.WellFormed) (hroot : root.In h)
    (hok : (w.compact hash h root).2 = .ok ())
    (hr : (w.compact hash h root).1.ReadInto (w.view orig h) m h') :
    (w'.compact hash' h' (root.mapId m)).2 = .ok () ∧
      Abreast m (w.compact hash h root).1.HasCopied hash hash' (w.view orig h) h'.object
        (w.compact hash h root).1 (w'.compact hash' h' (root.mapId m)).1 := by
  obtain ⟨_, _, _, hnext⟩ := (hw.view h).compact (supplies_view hh w orig) hroot hok
  have hmatched := hr.matched w' hh hab.left hnext
  have hmet : ∀ id, root = .object id → (w.compact hash h root).1.HasCopied id := by
    intro id hid
    have hmem : .object id ∈ roots ++ [root] :=
      hid ▸ List.mem_append_right _ List.mem_cons_self
    obtain ⟨_, hc, _⟩ := hnext.copiedAt_of_root hmem
    exact ⟨_, hc⟩
  have hdone : (w.writeRoot hash h root).2 = none := by
    rcases compact_cases w hash h root with ⟨v, hv, _⟩ | ⟨v, e, _, hcompact⟩
    · rw [hv]
    · rw [hcompact] at hok
      cases hok
  obtain ⟨hsame, hafter⟩ := (hab.before h root).compact hmatched hroot hmet (.inl hdone)
  exact ⟨hsame.trans hok, hafter⟩

/-- The second writer makes the calls again that succeeded, and all of them succeed. -/
theorem Abreast.calls_again (hab : Abreast m w.HasCopied hash hash' orig h'.object w w')
    (hw : Holding w hash orig roots layout f)
    (hr : (w.calls hash calls).1.ReadInto (w.originals hash orig calls) m h')
    (hcalls : ∀ call ∈ calls, call.1.WellFormed ∧ call.2.In call.1) :
    (∀ result ∈ (w'.calls hash' ((w.accepted hash calls).map
        fun entry => (h', entry.1.mapId m))).2, result = .ok ()) ∧
      ∃ orig₁, Abreast m (w.calls hash calls).1.HasCopied hash hash' orig₁ h'.object
        (w.calls hash calls).1
        (w'.calls hash' ((w.accepted hash calls).map fun entry => (h', entry.1.mapId m))).1 := by
  -- A call that failed has no counterpart: the induction is on the calls of the first writer.
  induction calls generalizing w w' orig roots layout f with
  | nil => exact ⟨nofun, orig, hab⟩
  | cons call rest ih =>
    obtain ⟨h, root⟩ := call
    obtain ⟨⟨hh, hroot⟩, hlater⟩ := List.forall_mem_cons.mp hcalls
    rw [Writer.calls, originals] at hr
    rw [Writer.calls]
    cases hresult : (w.compact hash h root).2 with
    | error e =>
      rw [accepted_cons_of_error hresult]
      exact ih ((hab.before h root).compact_of_error hresult)
        ((hw.view h).compact_of_error hab.left hresult) hr hlater
    | ok =>
      have hnext := hab.left.compact hash h root
      have hread : (w.compact hash h root).1.ReadInto (w.view orig h) m h' := by
        apply hr.earlier (hnext.grownFrom_calls hash rest)
        intro id hid
        obtain ⟨_, hc⟩ := hid
        exact originals_of_copied hnext rest hc
      obtain ⟨hfirst, hafter⟩ := hab.compact_again hw hh hroot hresult hread
      obtain ⟨_, _, _, hcompact⟩ := (hw.view h).compact (supplies_view hh w orig) hroot hresult
      obtain ⟨hrest, hdone⟩ := ih hafter hcompact hr hlater
      rw [accepted_cons_of_ok hresult, List.map_cons, Writer.calls]
      exact ⟨List.forall_mem_cons.mpr ⟨hfirst, hrest⟩, hdone⟩

end Again

end Writer

/-- If some call of a writer has succeeded, what it holds can be loaded into any heap. A new writer
with the same base address and the same sharing, given the roots in the order they are read,
succeeds for all of them and holds the same bytes, with nothing left to share. -/
theorem exists_load_compact_eq {ε : Type} {c c' : WriterConfig} {w w' : Writer}
    (hcreate : Writer.create? c = .ok w) (hcreate' : Writer.create? c' = .ok w')
    (hbase : c'.base = c.base) (hsharing : c'.sharing = c.sharing) (hash hash' : ContentHash)
    {calls : List (Heap × Value)} (hcalls : ∀ call ∈ calls, call.1.WellFormed ∧ call.2.In call.1)
    (hsome : .ok () ∈ (w.calls hash calls).2) {h : Heap} (hh : h.WellFormed) (release : ε) :
    ∃ (h' : Heap) (region : Region ε) (roots : List Value),
      Region.ofWriter h (w.calls hash calls).1 release = (.ok (h', region), []) ∧
      region.reads region.rootCount = roots.map some ∧
      (∀ result ∈ (w'.calls hash' (roots.map fun root => (h', root))).2, result = .ok ()) ∧
      (w'.calls hash' (roots.map fun root => (h', root))).1.data = (w.calls hash calls).1.data ∧
      (w'.calls hash' (roots.map fun root => (h', root))).1.stats =
        { (w.calls hash calls).1.stats with shared := 0 } := by
  have hrest := Writer.atRest_of_create? hcreate
  have hrest' := Writer.atRest_of_create? hcreate'
  have hempty := Writer.holding_of_create? hcreate hash fun _ => .array #[]
  obtain ⟨layout, f, hw, _⟩ := hempty.history hrest hcalls
  rw [List.nil_append] at hw
  have hne : (w.accepted hash calls).map Prod.fst ≠ [] := by
    rw [Ne, List.map_eq_nil_iff]
    exact Writer.accepted_ne_nil_iff.mpr hsome
  obtain ⟨g, region, hg, hload, hcount, hreads⟩ := hw.exists_load hne h release
  have hread := hw.readInto hne hg (hh.load hload)
  generalize (w.calls hash calls).1.loadedId ([] ++ layout) h.size = m at hread hreads
  have hbase₀ : w'.base = w.base := by
    rw [Writer.base_of_create? hcreate', hbase, Writer.base_of_create? hcreate]
  have hsharing₀ : w'.sharing = w.sharing := by
    rw [Writer.sharing_of_create? hcreate', hsharing, Writer.sharing_of_create? hcreate]
  have hbefore : Writer.Abreast m w.HasCopied hash hash' _ (h.adopt g.objects).object w w' :=
    hempty.abreast (Writer.holding_of_create? hcreate' hash' _) hrest hrest'
      (UInt64.le_of_eq hbase₀) hsharing₀
  obtain ⟨hok, _, hafter⟩ := hbefore.calls_again hempty hread hcalls
  obtain ⟨_, ha⟩ := hafter.alike
  have hroots : (w.accepted hash calls).map (fun entry => (h.adopt g.objects, entry.1.mapId m)) =
      ((w.accepted hash calls).map fun entry => entry.1.mapId m).map
        fun root => (h.adopt g.objects, root) := by
    rw [List.map_map]
    rfl
  rw [hroots] at hok ha
  have hbase₁ := (hrest.grownFrom_calls hash calls).base
  refine ⟨_, region, (w.accepted hash calls).map fun entry => entry.1.mapId m, hload, ?_, hok, ?_,
    ?_⟩
  · rw [hcount, hreads, List.map_map, List.map_map]
    rfl
  · exact ha.data_eq ((hrest'.grownFrom_calls hash' _).base.trans (hbase₀.trans hbase₁.symm))
  · exact Stats.ext ha.roots_eq ha.objects_eq (ha.shared_eq_zero hread.same)

/-- The strings share a record at first; in what is read they are one string. -/
theorem twin_written_again : ∃ (h' : Heap) (region : Region Unit) (roots : List Value),
    Region.ofWriter twinHeap ((Writer.start { base := 4096 }).calls fingerprint twinCalls).1 () =
      (.ok (h', region), []) ∧
    region.reads region.rootCount = roots.map some ∧
    (∀ result ∈ ((Writer.start { base := 4096, initialCapacity := 0 }).calls (fun _ => 0)
      (roots.map fun root => (h', root))).2, result = .ok ()) ∧
    ((Writer.start { base := 4096, initialCapacity := 0 }).calls (fun _ => 0)
      (roots.map fun root => (h', root))).1.data =
        ((Writer.start { base := 4096 }).calls fingerprint twinCalls).1.data ∧
    ((Writer.start { base := 4096, initialCapacity := 0 }).calls (fun _ => 0)
      (roots.map fun root => (h', root))).1.stats =
        { ((Writer.start { base := 4096 }).calls fingerprint twinCalls).1.stats with
          shared := 0 } :=
  exists_load_compact_eq (c := { base := 4096 }) rfl
    (show Writer.create? { base := 4096, initialCapacity := 0 } = .ok _ from rfl) rfl rfl
    fingerprint (fun _ => 0) wellFormed_twinCalls (calls_twin ▸ List.mem_cons_self)
    wellFormed_twinHeap ()

end HeapImage
