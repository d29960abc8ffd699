import Mathlib
import HeapImage.Disk.World

/-!
# Reading files

However the bytes of a file are delivered, reading until a buffer is full gives the range that was
asked for, or fails if the file ends before. The pages of a whole file are the file.
-/

namespace HeapImage
set_option autoImplicit false

namespace Schedule

theorem delivered_le (s : Schedule) (turn available : Nat) :
    s.delivered turn available ≤ available :=
  Nat.min_le_left _ _

theorem delivered_eq_zero_iff {s : Schedule} {turn available : Nat} :
    s.delivered turn available = 0 ↔ available = 0 := by
  rw [delivered]
  omega

end Schedule

/-- Each read of a range that ends at `last` delivers bytes of the file from its offset on: no more
than are asked for, no more than there are, and none only at the end of the file or behind it. -/
def Delivers (read : Nat → Int → Nat → Except FileError Bytes) (file : Bytes) (last : Nat) : Prop :=
  ∀ turn offset length : Nat, 0 < length → offset + length = last →
    ∃ count, count ≤ length ∧ count ≤ file.size - offset ∧ (count = 0 → file.size ≤ offset) ∧
      read turn offset length = .ok (file.extract offset (offset + count))

namespace Delivers
variable {read other : Nat → Int → Nat → Except FileError Bytes} {file : Bytes} {offset length : Nat}

/-- What one turn does: the file has ended, or the rest is shorter than before and the same range is
gone on with. Only the read of this turn matters. -/
theorem fill_cases (hread : Delivers read file (offset + length)) (hpos : 0 < length) (turn : Nat) :
    (file.size ≤ offset ∧ ∀ other got, other turn = read turn →
      fill other turn offset length got = .error .unexpectedEnd) ∨
    ∃ count, 0 < count ∧ count ≤ length ∧ offset + count ≤ file.size ∧
      ∀ other got, other turn = read turn → fill other turn offset length got =
        fill other (turn + 1) (offset + count : Nat) (length - count)
          (got ++ file.extract offset (offset + count)) := by
  obtain ⟨count, hle, havailable, hend, hdelivered⟩ := hread turn offset length hpos rfl
  have hsize : (file.extract offset (offset + count)).size = count := by
    rw [Array.size_extract]
    omega
  have hturn : ∀ (other : Nat → Int → Nat → Except FileError Bytes) (got : Bytes),
      other turn = read turn → fill other turn offset length got =
        if count = 0 then .error .unexpectedEnd
        else fill other (turn + 1) (offset + count : Nat) (length - count)
          (got ++ file.extract offset (offset + count)) := by
    intro other got hsame
    rw [fill, if_neg (by omega), hsame, hdelivered]
    dsimp only
    rw [hsize, ← Int.natCast_add]
  by_cases hzero : count = 0
  · exact .inl ⟨hend hzero, fun other got hsame => (hturn other got hsame).trans (if_pos hzero)⟩
  · exact .inr ⟨count, by omega, hle, by omega,
      fun other got hsame => (hturn other got hsame).trans (if_neg hzero)⟩

/-- The bytes read by now and those still to be read are the range; what each read delivers moves
the place between them. -/
theorem fill_eq (hread : Delivers read file (offset + length)) (turn : Nat) (got : Bytes) :
    fill read turn offset length got =
      if length = 0 ∨ offset + length ≤ file.size then
        .ok (got ++ file.extract offset (offset + length))
      else .error .unexpectedEnd := by
  induction length using Nat.strong_induction_on generalizing turn offset got with
  | _ length ih =>
    by_cases hzero : length = 0
    · subst hzero
      rw [fill, if_pos rfl, if_pos (.inl rfl)]
      simp
    rcases hread.fill_cases (by omega) turn with ⟨hend, hfill⟩ | ⟨count, hpos, hle, hin, hfill⟩
    · rw [hfill read got rfl, if_neg (by omega)]
    · have hlast : offset + count + (length - count) = offset + length := by omega
      have hjoin : file.extract offset (offset + count) ++
          file.extract (offset + count) (offset + length) =
            file.extract offset (offset + length) := by
        rw [Array.extract_append_extract, Nat.min_eq_left (by omega), Nat.max_eq_right (by omega)]
      rw [hfill read got rfl, ih (length - count) (by omega) (hlast ▸ hread), hlast,
        Array.append_assoc, hjoin]
      apply if_congr _ rfl rfl
      omega

/-- No more reads are made than bytes are asked for, as each delivers a byte or is the last. -/
theorem fill_congr (hread : Delivers read file (offset + length)) {turn : Nat}
    (hsame : ∀ later, turn ≤ later → later < turn + length → other later = read later)
    (got : Bytes) : fill other turn offset length got = fill read turn offset length got := by
  induction length using Nat.strong_induction_on generalizing turn offset got with
  | _ length ih =>
    by_cases hzero : length = 0
    · subst hzero
      rw [fill, fill, if_pos rfl, if_pos rfl]
    have hfirst := hsame turn (Nat.le_refl turn) (by omega)
    rcases hread.fill_cases (by omega) turn with ⟨_, hfill⟩ | ⟨count, hpos, hle, _, hfill⟩
    · rw [hfill other got hfirst, hfill read got rfl]
    · have hlast : offset + count + (length - count) = offset + length := by omega
      rw [hfill other got hfirst, hfill read got rfl]
      exact ih (length - count) (by omega) (hlast ▸ hread)
        (fun later hle hlt => hsame later (by omega) (by omega)) _

end Delivers

section Files
variable (file : Bytes) (schedule : Schedule) {turn offset length : Nat}

theorem readAt_file (hlimit : offset + length < offsetLimit) :
    (Opened.file file).readAt true schedule turn offset length =
      .ok (file.portion schedule turn offset length) := by
  rw [Opened.readAt, if_neg (by omega), if_neg (by simp), if_neg (by omega), Int.toNat_natCast]

theorem delivers_readAt (schedule : Schedule) {last : Nat} (hlimit : last < offsetLimit) :
    Delivers ((Opened.file file).readAt true schedule) file last := by
  rintro turn offset length hpos rfl
  have hle := schedule.delivered_le turn (min length (file.size - offset))
  refine ⟨schedule.delivered turn (min length (file.size - offset)), by omega, by omega, ?_,
    readAt_file file schedule hlimit⟩
  intro hzero
  have havailable := Schedule.delivered_eq_zero_iff.mp hzero
  omega

theorem page_all : file.page 0 file.size = file := by
  simp [Bytes.page]

end Files

/-- However the bytes of a range are delivered, reading comes to an end after at most as many reads
as bytes are asked for. It succeeds exactly if the file has the range, or nothing is asked for, and
then gives the bytes of the range; otherwise the file has ended too early. -/
theorem range_filled {read : Nat → Int → Nat → Except FileError Bytes} {file : Bytes}
    {offset length : Nat} (hread : Delivers read file (offset + length)) :
    ((∃ got, fill read 0 offset length #[] = .ok got) ↔
      length = 0 ∨ offset + length ≤ file.size) ∧
    (∀ got, fill read 0 offset length #[] = .ok got →
      got = file.extract offset (offset + length) ∧ got.size = length) ∧
    (¬(length = 0 ∨ offset + length ≤ file.size) →
      fill read 0 offset length #[] = .error .unexpectedEnd) ∧
    ∀ other : Nat → Int → Nat → Except FileError Bytes,
      (∀ turn, turn < length → other turn = read turn) →
        fill other 0 offset length #[] = fill read 0 offset length #[] := by
  have hfill := hread.fill_eq 0 #[]
  rw [Array.empty_append] at hfill
  refine ⟨?_, ?_, fun hnot => hfill.trans (if_neg hnot), fun other hsame =>
    hread.fill_congr (fun later _ hlt => hsame later (by omega)) #[]⟩
  · rw [hfill]
    split
    · rename_i hin
      exact iff_of_true ⟨_, rfl⟩ hin
    · rename_i hout
      exact iff_of_false nofun hout
  · intro got hgot
    rw [hfill] at hgot
    split at hgot
    · obtain rfl := Except.ok.inj hgot
      refine ⟨rfl, ?_⟩
      rw [Array.size_extract]
      omega
    · cases hgot

def greeting : Bytes := #[72, 101, 108, 108, 111, 44, 32, 119, 111, 114, 108, 100, 33]

/-- Two bytes at a time, a word is read from the middle of a file, but not a longer range. -/
theorem world_filled :
    Delivers ((Opened.file greeting).readAt true fun _ _ => 2) greeting (7 + 5) ∧
      (World.calls fun _ _ => 2).readExact ⟨.file greeting, true⟩ {} 7 5 =
        .ok #[119, 111, 114, 108, 100] ∧
      (World.calls fun _ _ => 2).readExact ⟨.file greeting, true⟩ {} 7 8 =
        .error .unexpectedEnd := by
  have hinside := delivers_readAt greeting (fun _ _ => 2) (show 7 + 5 < offsetLimit by decide)
  have hbeyond := delivers_readAt greeting (fun _ _ => 2) (show 7 + 8 < offsetLimit by decide)
  obtain ⟨hok, hbytes, _, _⟩ := range_filled hinside
  obtain ⟨_, _, hend, _⟩ := range_filled hbeyond
  obtain ⟨got, hgot⟩ := hok.mpr (.inr (by decide))
  have hworld : got = #[119, 111, 114, 108, 100] := (hbytes got hgot).1
  exact ⟨hinside, hworld ▸ hgot, hend (by decide)⟩

end HeapImage
