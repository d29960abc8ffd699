import HeapImage.Proofs.Image.Dangling
import HeapImage.Region

/-!
# The life of a region

However a region is used, its release action is performed once: at once if the image is refused, and
otherwise by the first release, or by the drop if there was none. Until then the roots are handed
out in order; from then on there are none.
-/

namespace HeapImage
set_option autoImplicit false

/-- The roots that the terminators of an image hold, in order. -/
def imageRoots (bytes : Bytes) (base first : Nat) (records : List Record) : List Value :=
  (records.filter Record.isTerminator).map fun r =>
    wordValue base first records (bytes.word (r.offset + 8))

theorem roots_imageGraph (bytes : Bytes) (base first : Nat) (records : List Record) :
    (imageGraph bytes base first records).roots = (imageRoots bytes base first records).toArray := by
  simp only [imageGraph, imageRoots, roots_of_records, rootSlots, List.map_map, Function.comp_def,
    Record.rawRef]

namespace Region
variable {ε : Type}

/-- What can be done with a region before it is dropped. -/
inductive Use where
  | read
  | rootCount
  | release
deriving DecidableEq

inductive Reply where
  | root (value : Option Value)
  | count (n : Nat)
  | released
deriving DecidableEq

/-- Use a region once: what it is from then on, what it replies, and what takes effect. -/
def use (r : Region ε) : Use → Region ε × Reply × List ε
  | .read => (r.read.1, .root r.read.2, [])
  | .rootCount => (r, .count r.rootCount, [])
  | .release => (r.release.1, .released, r.release.2)

def run (r : Region ε) : List Use → Region ε × List Reply × List ε
  | [] => (r, [], [])
  | next :: rest =>
    let first := r.use next
    let later := first.1.run rest
    (later.1, first.2.1 :: later.2.1, first.2.2 ++ later.2.2)

/-- The reply to a use that comes after the earlier ones, if the region was loaded with the given
roots. -/
def expected (roots : List Value) (earlier : List Use) : Use → Reply
  | .read => .root (if .release ∈ earlier then none else roots[earlier.count .read]?)
  | .rootCount => .count (if .release ∈ earlier then 0 else roots.length)
  | .release => .released

/-- A region after some uses. Reads that have found no root have not moved on. -/
structure Used (roots : List Value) (action : ε) (earlier : List Use) (r : Region ε) : Prop where
  held : .release ∉ earlier → r.roots = roots.toArray ∧
    r.next = min (earlier.count .read) roots.length ∧ r.guard.map Guard.consume = some action
  released : .release ∈ earlier → r.roots = #[] ∧ r.guard = none

namespace Used
variable {roots : List Value} {action : ε} {earlier : List Use} {r : Region ε}

theorem read (hr : Used roots action earlier r) :
    Used roots action (earlier ++ [.read]) r.read.1 ∧
      r.read.2 = if .release ∈ earlier then none else roots[earlier.count .read]? := by
  have hmem : .release ∈ earlier ++ [.read] ↔ .release ∈ earlier := by simp
  have hcount : (earlier ++ [Use.read]).count .read = earlier.count .read + 1 := by simp
  by_cases hreleased : .release ∈ earlier
  · obtain ⟨hroots, hguard⟩ := hr.released hreleased
    have hread : r.read = (r, none) := by rw [Region.read, hroots]; rfl
    rw [hread, if_pos hreleased]
    exact ⟨⟨fun hnot => absurd (hmem.mpr hreleased) hnot, fun _ => ⟨hroots, hguard⟩⟩, rfl⟩
  · obtain ⟨hroots, hnext, hguard⟩ := hr.held hreleased
    have hat : r.roots[r.next]? = roots[earlier.count .read]? := by
      rw [hroots, List.getElem?_toArray, hnext]
      rcases Nat.lt_or_ge (earlier.count .read) roots.length with hlt | hge
      · rw [Nat.min_eq_left (Nat.le_of_lt hlt)]
      · rw [Nat.min_eq_right hge, List.getElem?_eq_none (Nat.le_refl _),
          List.getElem?_eq_none hge]
    rw [if_neg hreleased, Region.read, hat]
    cases hfound : roots[earlier.count .read]? with
    | some root =>
      obtain ⟨hlt, _⟩ := List.getElem?_eq_some_iff.mp hfound
      refine ⟨⟨fun _ => ⟨hroots, ?_, hguard⟩, fun h => absurd (hmem.mp h) hreleased⟩, rfl⟩
      dsimp only
      omega
    | none =>
      have hge := List.getElem?_eq_none_iff.mp hfound
      refine ⟨⟨fun _ => ⟨hroots, ?_, hguard⟩, fun h => absurd (hmem.mp h) hreleased⟩, rfl⟩
      dsimp only
      omega

theorem rootCount (hr : Used roots action earlier r) :
    r.rootCount = if .release ∈ earlier then 0 else roots.length := by
  rw [Region.rootCount]
  by_cases hreleased : .release ∈ earlier
  · rw [(hr.released hreleased).1, if_pos hreleased]
    rfl
  · rw [(hr.held hreleased).1, if_neg hreleased, List.size_toArray]

/-- Only the first release performs the action. -/
theorem release (hr : Used roots action earlier r) :
    Used roots action (earlier ++ [.release]) r.release.1 ∧
      r.release.2 = if .release ∈ earlier then [] else [action] := by
  have hmem : .release ∈ earlier ++ [.release] := by simp
  by_cases hreleased : .release ∈ earlier
  · obtain ⟨_, hguard⟩ := hr.released hreleased
    rw [Region.release, hguard, if_pos hreleased]
    exact ⟨⟨fun hnot => absurd hmem hnot, fun _ => ⟨rfl, rfl⟩⟩, rfl⟩
  · obtain ⟨_, _, hguard⟩ := hr.held hreleased
    obtain ⟨guard, hsome, hconsume⟩ := Option.map_eq_some_iff.mp hguard
    rw [Region.release, hsome, if_neg hreleased]
    exact ⟨⟨fun hnot => absurd hmem hnot, fun _ => ⟨rfl, rfl⟩⟩, congrArg (· :: []) hconsume⟩

theorem use (hr : Used roots action earlier r) (next : Use) :
    Used roots action (earlier ++ [next]) (r.use next).1 ∧
      (r.use next).2.1 = expected roots earlier next ∧
      (r.use next).2.2 = if next = .release ∧ .release ∉ earlier then [action] else [] := by
  cases next with
  | read =>
    obtain ⟨hafter, hreply⟩ := hr.read
    exact ⟨hafter, congrArg Reply.root hreply, rfl⟩
  | rootCount =>
    have hafter : Used roots action (earlier ++ [.rootCount]) r := by
      refine ⟨fun hnot => ?_, fun hreleased => hr.released (by simpa using hreleased)⟩
      obtain ⟨hroots, hnext, hguard⟩ := hr.held (by simpa using hnot)
      exact ⟨hroots, by simpa using hnext, hguard⟩
    exact ⟨hafter, congrArg Reply.count hr.rootCount, rfl⟩
  | release =>
    obtain ⟨hafter, heffects⟩ := hr.release
    refine ⟨hafter, rfl, heffects.trans ?_⟩
    by_cases hreleased : .release ∈ earlier
    · rw [if_pos hreleased, if_neg fun h => h.2 hreleased]
    · rw [if_neg hreleased, if_pos ⟨rfl, hreleased⟩]

theorem run (hr : Used roots action earlier r) (uses : List Use) :
    Used roots action (earlier ++ uses) (r.run uses).1 ∧
      (r.run uses).2.2 =
        (if .release ∈ uses ∧ .release ∉ earlier then [action] else []) ∧
      ∀ i : Nat, (r.run uses).2.1[i]? =
        uses[i]?.map (expected roots (earlier ++ uses.take i)) := by
  induction uses generalizing earlier r with
  | nil => exact ⟨by rwa [List.append_nil], by simp [Region.run], fun i => rfl⟩
  | cons next rest ih =>
    obtain ⟨hafter, hreply, heffects⟩ := hr.use next
    obtain ⟨hdone, hlater, hreplies⟩ := ih hafter
    rw [Region.run]
    refine ⟨by rwa [List.append_assoc] at hdone, ?_, ?_⟩
    · dsimp only
      rw [heffects, hlater]
      by_cases hreleased : .release ∈ earlier
      · simp [hreleased]
      · by_cases hnext : next = .release
        · simp [hnext, hreleased]
        · have hother : Use.release ≠ next := fun h => hnext h.symm
          simp [hnext, hother, hreleased]
    · intro i
      cases i with
      | zero => simpa using hreply
      | succ i => simpa using hreplies i

theorem drop (hr : Used roots action earlier r) :
    r.drop = if .release ∈ earlier then [] else [action] :=
  hr.release.2

end Used

/-- If an image is refused, the release action has been performed once by then. If it is loaded, the
action is performed by the first release or else by the drop, and by nothing else. The reads before
that give the roots of the terminators, in order, and later ones give nothing. -/
theorem released_once (h : Heap) (bytes : Bytes) (declared : UInt64) (aligned mapped : Bool)
    (action : ε) :
    match Region.load h bytes declared aligned mapped action with
    | (.error _, effects) => effects = [action]
    | (.ok (_, region), effects) => effects = [] ∧ ∃ records,
        IsImage bytes declared.toNat records ∧ ∀ uses : List Use,
          (region.run uses).2.2 = (if .release ∈ uses then [action] else []) ∧
          (region.run uses).2.2 ++ (region.run uses).1.drop = [action] ∧
          ∀ i : Nat, (region.run uses).2.1[i]? = uses[i]?.map
            (expected (imageRoots bytes declared.toNat h.size records) (uses.take i)) := by
  rw [Region.load]
  cases hload : bytes.load declared aligned h.size with
  | error cause => rfl
  | ok graph =>
    obtain ⟨records, himage, rfl⟩ := isImage_of_load hload
    refine ⟨rfl, records, himage, fun uses => ?_⟩
    generalize hregion : (Region.mk _ _ _ _ _ _ : Region ε) = region
    have hfresh : Used (imageRoots bytes declared.toNat h.size records) action [] region := by
      subst hregion
      exact ⟨fun _ => ⟨roots_imageGraph .., rfl, rfl⟩, nofun⟩
    obtain ⟨hdone, heffects, hreplies⟩ := hfresh.run uses
    rw [List.nil_append] at hdone
    have hperformed : (region.run uses).2.2 = if .release ∈ uses then [action] else [] := by
      simpa using heffects
    refine ⟨hperformed, ?_, hreplies⟩
    rw [hperformed, hdone.drop]
    by_cases hreleased : .release ∈ uses
    · rw [if_pos hreleased, if_pos hreleased, List.append_nil]
    · rw [if_neg hreleased, if_neg hreleased, List.nil_append]

end Region
end HeapImage
