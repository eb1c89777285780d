namespace StopTheWorld

/-- A total map with finitely many entries. A key without an entry has the default value, so that
reading and writing need no bounds. -/
structure Table (κ α : Type) where
  entries : List (κ × α) := []

namespace Table

variable {κ α : Type}

private def find [DecidableEq κ] (key : κ) : List (κ × α) → Option α
  | [] => none
  | (k, a) :: rest => if k = key then some a else find key rest

private def put [DecidableEq κ] (key : κ) (value : α) : List (κ × α) → List (κ × α)
  | [] => [(key, value)]
  | (k, a) :: rest => if k = key then (k, value) :: rest else (k, a) :: put key value rest

def empty : Table κ α := ⟨[]⟩

def get [DecidableEq κ] [Inhabited α] (table : Table κ α) (key : κ) : α :=
  (find key table.entries).getD default

def set [DecidableEq κ] (table : Table κ α) (key : κ) (value : α) : Table κ α :=
  ⟨put key value table.entries⟩

def modify [DecidableEq κ] [Inhabited α] (table : Table κ α) (key : κ) (f : α → α) : Table κ α :=
  table.set key (f (table.get key))

/-- The values given, under the keys 0, 1, and so on. -/
def ofList (values : List α) : Table Nat α :=
  ⟨values.zipIdx.map fun entry => (entry.2, entry.1)⟩

instance : Inhabited (Table κ α) := ⟨empty⟩

private theorem find_put [DecidableEq κ] (key other : κ) (value : α) (entries : List (κ × α)) :
    find other (put key value entries) = if other = key then some value else find other entries := by
  induction entries with
  | nil => by_cases h : key = other <;> simp [put, find, h, eq_comm]
  | cons entry rest ih =>
    obtain ⟨k, a⟩ := entry
    by_cases hk : k = key
    · subst hk
      by_cases ho : k = other
      · simp [put, find, ho]
      · simp [put, find, ho, Ne.symm ho]
    · by_cases ho : k = other
      · subst ho
        simp [put, find, hk]
      · simp [put, find, hk, ho, ih]

@[simp] theorem get_empty [DecidableEq κ] [Inhabited α] (key : κ) :
    (empty : Table κ α).get key = default := rfl

/-- Writing one key changes what is read at that key and nowhere else. -/
theorem get_set [DecidableEq κ] [Inhabited α] (table : Table κ α) (key other : κ) (value : α) :
    (table.set key value).get other = if other = key then value else table.get other := by
  by_cases h : other = key <;> simp [get, set, find_put, h]

@[simp] theorem get_set_self [DecidableEq κ] [Inhabited α] (table : Table κ α) (key : κ)
    (value : α) : (table.set key value).get key = value := by
  simp [get_set]

@[simp] theorem get_set_of_ne [DecidableEq κ] [Inhabited α] (table : Table κ α) {key other : κ}
    (value : α) (h : other ≠ key) : (table.set key value).get other = table.get other := by
  simp [get_set, h]

theorem get_modify [DecidableEq κ] [Inhabited α] (table : Table κ α) (key other : κ) (f : α → α) :
    (table.modify key f).get other = if other = key then f (table.get key) else table.get other :=
  get_set table key other _

private theorem find_cases [DecidableEq κ] (key : κ) (entries : List (κ × α)) :
    (∃ value, find key entries = some value ∧ (key, value) ∈ entries) ∨
      find key entries = none ∧ key ∉ entries.map (·.1) := by
  induction entries with
  | nil => exact .inr ⟨rfl, by simp⟩
  | cons entry rest ih =>
    obtain ⟨k, a⟩ := entry
    by_cases here : k = key
    · exact .inl ⟨a, by simp [find, here], by simp [here]⟩
    · obtain ⟨value, found, mem⟩ | ⟨none, absent⟩ := ih
      · exact .inl ⟨value, by simp [find, here, found], List.mem_cons_of_mem _ mem⟩
      · exact .inr ⟨by simp [find, here, none], by simp [Ne.symm here, absent]⟩

/-- What is read is an entry, or the default at a key without one. -/
theorem get_cases [DecidableEq κ] [Inhabited α] (table : Table κ α) (key : κ) :
    (key, table.get key) ∈ table.entries ∨
      table.get key = default ∧ key ∉ table.entries.map (·.1) := by
  obtain ⟨value, found, mem⟩ | ⟨none, absent⟩ := find_cases key table.entries
  · exact .inl (by simpa [get, found] using mem)
  · exact .inr ⟨by simp [get, none], absent⟩

private theorem find_enumerated (values : List α) (first i : Nat) :
    find (first + i) ((values.zipIdx first).map fun entry => (entry.2, entry.1)) = values[i]? := by
  induction values generalizing first i with
  | nil => rfl
  | cons value rest ih =>
    cases i with
    | zero => simp [find]
    | succ i =>
      have shifted := ih (first + 1) i
      rw [Nat.add_right_comm, Nat.add_assoc] at shifted
      simpa [find] using shifted

/-- A table made from a list is read by position. -/
theorem get_ofList [Inhabited α] (values : List α) (i : Nat) :
    (ofList values).get i = values.getD i default := by
  have enumerated := find_enumerated values 0 i
  rw [Nat.zero_add] at enumerated
  simp [get, ofList, enumerated, List.getD]

end Table

end StopTheWorld
