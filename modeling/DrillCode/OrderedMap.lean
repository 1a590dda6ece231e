/-! # Maps in order of insertion

A map keeps its keys in the order in which they were first inserted. Inserting a key that is there
replaces its value and leaves it in its place. -/

namespace DrillCode

/-- Entries with distinct keys, in the order of their first insertion. -/
structure OrderedMap (κ α : Type) where
  entries : List (κ × α)
  nodup : (entries.map Prod.fst).Nodup
  deriving DecidableEq

namespace OrderedMap
variable {κ α β : Type} [DecidableEq κ]

/-- Puts a value to its key: in the place of the old one, or last. -/
def put (key : κ) (value : α) : (entries : List (κ × α)) → List (κ × α)
  | [] => [(key, value)]
  | entry :: entries =>
    if entry.1 = key then (key, value) :: entries else entry :: put key value entries

theorem mem_keys_put {key k : κ} {value : α} {entries : List (κ × α)} :
    k ∈ (put key value entries).map Prod.fst ↔ k = key ∨ k ∈ entries.map Prod.fst := by
  induction entries with
  | nil => simp [put]
  | cons entry entries ih =>
    unfold put
    split
    · next h =>
      subst h
      simp
    · simp only [List.map_cons, List.mem_cons, ih]
      exact or_left_comm

theorem nodup_put {key : κ} {value : α} {entries : List (κ × α)}
    (h : (entries.map Prod.fst).Nodup) : ((put key value entries).map Prod.fst).Nodup := by
  induction entries with
  | nil => simp [put]
  | cons entry entries ih =>
    rw [List.map_cons, List.nodup_cons] at h
    unfold put
    split
    · next heq =>
      subst heq
      simpa using h
    · next hne =>
      rw [List.map_cons, List.nodup_cons, mem_keys_put]
      exact ⟨fun hk => hk.elim hne h.1, ih h.2⟩

def empty : OrderedMap κ α := ⟨[], List.nodup_nil⟩

def insert (m : OrderedMap κ α) (key : κ) (value : α) : OrderedMap κ α :=
  ⟨put key value m.entries, nodup_put m.nodup⟩

/-- The map of entries inserted one by one. -/
def ofList (entries : List (κ × α)) : OrderedMap κ α :=
  entries.foldl (fun m entry => m.insert entry.1 entry.2) empty

def get? (m : OrderedMap κ α) (key : κ) : Option α :=
  (m.entries.find? fun entry => entry.1 = key).map Prod.snd

def isEmpty (m : OrderedMap κ α) : Bool :=
  m.entries.isEmpty

def size (m : OrderedMap κ α) : Nat :=
  m.entries.length

/-- The map with the same keys and other values. -/
def mapValues (f : α → β) (m : OrderedMap κ α) : OrderedMap κ β where
  entries := m.entries.map fun entry => (entry.1, f entry.2)
  nodup := by
    rw [List.map_map]
    exact m.nodup

end OrderedMap
end DrillCode
