/-!
# Tables of names

Names and what they are bound to, the latest binding first. Binding a name again replaces what it
stood for.
-/

namespace HeapImage
set_option autoImplicit false

structure Table (α : Type) where
  entries : List (String × α) := []

namespace Table
variable {α : Type}

def find? (t : Table α) (name : String) : Option α :=
  (t.entries.find? fun entry => entry.1 == name).map Prod.snd

def contains (t : Table α) (name : String) : Bool := (t.find? name).isSome

def erase (t : Table α) (name : String) : Table α :=
  ⟨t.entries.filter fun entry => entry.1 != name⟩

def insert (t : Table α) (name : String) (a : α) : Table α :=
  ⟨(name, a) :: (t.erase name).entries⟩

@[simp] theorem find?_erase_self (t : Table α) (name : String) :
    (t.erase name).find? name = none := by
  simp [find?, erase, List.find?_filter]

theorem find?_erase_ne (t : Table α) {name other : String} (hne : name ≠ other) :
    (t.erase name).find? other = t.find? other := by
  have h : ∀ entry : String × α,
      decide ((entry.1 != name) = true ∧ (entry.1 == other) = true) = (entry.1 == other) := by
    intro entry
    by_cases heq : entry.1 = other
    · simp [heq, hne.symm]
    · simp [heq]
  simp only [find?, erase, List.find?_filter, h]

@[simp] theorem find?_insert_self (t : Table α) (name : String) (a : α) :
    (t.insert name a).find? name = some a := by
  simp [find?, insert]

theorem find?_insert_ne (t : Table α) {name other : String} (hne : name ≠ other) (a : α) :
    (t.insert name a).find? other = t.find? other := by
  rw [← find?_erase_ne t hne]
  simp [find?, insert, hne]

end Table
end HeapImage
