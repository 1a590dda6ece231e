import DrillCode.OrderedMap

/-! # Maps from lists

The map of a list of entries has each key once, in the place of its first entry, with the value of its
last. -/

namespace DrillCode.OrderedMap
variable {κ α : Type} [DecidableEq κ]

/-- The keys, in their order. -/
def keys (m : OrderedMap κ α) : List κ := m.entries.map Prod.fst

/-! ### Inserting -/

theorem keys_put (key : κ) (value : α) : ∀ entries : List (κ × α),
    (put key value entries).map Prod.fst =
      if key ∈ entries.map Prod.fst then entries.map Prod.fst else entries.map Prod.fst ++ [key]
  | [] => rfl
  | entry :: entries => by
    have ih := keys_put key value entries
    by_cases hkey : entry.1 = key
    · rw [put, if_pos hkey, if_pos (by rw [List.map_cons, hkey]; exact List.mem_cons_self), List.map_cons,
        List.map_cons, hkey]
    · rw [put, if_neg hkey, List.map_cons, ih, List.map_cons]
      have hmem : key ∈ entry.1 :: entries.map Prod.fst ↔ key ∈ entries.map Prod.fst :=
        List.mem_cons.trans (or_iff_right (Ne.symm hkey))
      split
      · next h => rw [if_pos (hmem.mpr h)]
      · next h => rw [if_neg (fun h' => h (hmem.mp h')), List.cons_append]

theorem find?_put (key : κ) (value : α) (k : κ) : ∀ entries : List (κ × α),
    ((put key value entries).find? fun entry => entry.1 = k).map Prod.snd =
      if k = key then some value else (entries.find? fun entry => entry.1 = k).map Prod.snd
  | [] => by
    by_cases hk : k = key
    · simp [put, hk]
    · simp [put, hk, Ne.symm hk]
  | entry :: entries => by
    have ih := find?_put key value k entries
    by_cases hkey : entry.1 = key
    · rw [put, if_pos hkey]
      by_cases hk : k = key
      · simp [hk]
      · simp [hk, hkey, Ne.symm hk]
    · rw [put, if_neg hkey]
      by_cases hentry : entry.1 = k
      · subst hentry
        simp [hkey]
      · simpa [hentry] using ih

theorem keys_insert (m : OrderedMap κ α) (key : κ) (value : α) :
    (m.insert key value).keys = if key ∈ m.keys then m.keys else m.keys ++ [key] :=
  keys_put key value m.entries

theorem get?_insert (m : OrderedMap κ α) (key : κ) (value : α) (k : κ) :
    (m.insert key value).get? k = if k = key then some value else m.get? k :=
  find?_put key value k m.entries

/-! ### Other values -/

theorem get?_mapValues {β : Type} (f : α → β) (m : OrderedMap κ α) (k : κ) :
    (m.mapValues f).get? k = (m.get? k).map f := by
  rw [get?, get?, mapValues, List.find?_map, Option.map_map, Option.map_map]
  rfl

theorem get?_eq_none_iff {m : OrderedMap κ α} {k : κ} : m.get? k = none ↔ k ∉ m.keys := by
  rw [get?, Option.map_eq_none_iff, List.find?_eq_none, keys, List.mem_map]
  simp only [decide_eq_true_eq]
  exact ⟨fun h ⟨entry, hentry, heq⟩ => h entry hentry heq, fun h entry hentry heq => h ⟨entry, hentry, heq⟩⟩

/-! ### Inserting one by one -/

theorem eraseDups_of_nodup : ∀ {keys : List κ}, keys.Nodup → keys.eraseDups = keys
  | [], _ => rfl
  | key :: keys, h => by
    rw [List.nodup_cons] at h
    have hfilter : keys.filter (fun k => !k == key) = keys := List.filter_eq_self.mpr fun k hk => by
      rw [Bool.not_eq_true', beq_eq_false_iff_ne]
      exact fun heq => h.1 (heq ▸ hk)
    rw [List.eraseDups_cons, hfilter, eraseDups_of_nodup h.2]

theorem keys_foldl_insert : ∀ (entries : List (κ × α)) (m : OrderedMap κ α),
    (entries.foldl (fun m entry => m.insert entry.1 entry.2) m).keys =
      (m.keys ++ entries.map Prod.fst).eraseDups
  | [], m => by
    rw [List.map_nil, List.append_nil]
    exact (eraseDups_of_nodup m.nodup).symm
  | (key, value) :: entries, m => by
    rw [List.foldl_cons, keys_foldl_insert entries, keys_insert, List.map_cons]
    split
    · next hmem =>
      have hremove : (key :: entries.map Prod.fst).removeAll m.keys = (entries.map Prod.fst).removeAll m.keys := by
        rw [List.removeAll, List.filter_cons_of_neg (by simpa using hmem), List.removeAll]
      rw [List.eraseDups_append, List.eraseDups_append, hremove]
    · rw [List.append_assoc, List.singleton_append]

theorem get?_foldl_insert (k : κ) : ∀ (entries : List (κ × α)) (m : OrderedMap κ α),
    (entries.foldl (fun m entry => m.insert entry.1 entry.2) m).get? k =
      ((entries.reverse.find? fun entry => entry.1 = k).map Prod.snd).or (m.get? k)
  | [], _ => rfl
  | (key, value) :: entries, m => by
    rw [List.foldl_cons, get?_foldl_insert k entries, get?_insert, List.reverse_cons, List.find?_append,
      Option.map_or, Option.or_assoc]
    by_cases hk : k = key
    · simp [hk]
    · simp [hk, Ne.symm hk]

/-- Each key of the entries stands where it first came and has the value that came last. -/
structure Gathers (m : OrderedMap κ α) (entries : List (κ × α)) : Prop where
  keys : m.keys = (entries.map Prod.fst).eraseDups
  values : ∀ k, m.get? k = (entries.reverse.find? fun entry => entry.1 = k).map Prod.snd

theorem ofList_gathers (entries : List (κ × α)) : (ofList entries).Gathers entries where
  keys := keys_foldl_insert entries empty
  values k := by
    rw [ofList, get?_foldl_insert]
    exact Option.or_none

/-! ### The entries themselves -/

omit [DecidableEq κ] in
theorem eq_of_entries : ∀ {m m' : OrderedMap κ α}, m.entries = m'.entries → m = m'
  | ⟨_, _⟩, ⟨_, _⟩, rfl => rfl

theorem mem_put {key : κ} {value : α} {entry : κ × α} : ∀ {entries : List (κ × α)},
    entry ∈ put key value entries → entry = (key, value) ∨ entry ∈ entries
  | [], h => .inl (List.mem_singleton.mp h)
  | first :: entries, h => by
    rw [put] at h
    split at h
    · exact (List.mem_cons.mp h).imp_right (List.mem_cons_of_mem first)
    · rcases List.mem_cons.mp h with rfl | h
      · exact .inr List.mem_cons_self
      · exact (mem_put h).imp_right (List.mem_cons_of_mem first)

theorem mem_foldl_insert {entry : κ × α} : ∀ {entries : List (κ × α)} {m : OrderedMap κ α},
    entry ∈ (entries.foldl (fun m entry => m.insert entry.1 entry.2) m).entries →
      entry ∈ entries ∨ entry ∈ m.entries
  | [], _, h => .inr h
  | first :: entries, m, h => by
    rcases mem_foldl_insert (m := m.insert first.1 first.2) h with h | h
    · exact .inl (List.mem_cons_of_mem first h)
    · rcases mem_put h with rfl | h
      · exact .inl List.mem_cons_self
      · exact .inr h

theorem mem_of_mem_ofList {entry : κ × α} {entries : List (κ × α)} (h : entry ∈ (ofList entries).entries) :
    entry ∈ entries :=
  (mem_foldl_insert h).resolve_right List.not_mem_nil

theorem put_of_notMem {key : κ} (value : α) : ∀ {entries : List (κ × α)}, key ∉ entries.map Prod.fst →
    put key value entries = entries ++ [(key, value)]
  | [], _ => rfl
  | entry :: entries, h => by
    rw [List.map_cons, List.mem_cons, not_or] at h
    rw [put, if_neg (Ne.symm h.1), put_of_notMem value h.2, List.cons_append]

theorem entries_foldl_insert : ∀ {entries : List (κ × α)} {m : OrderedMap κ α},
    (m.keys ++ entries.map Prod.fst).Nodup →
      (entries.foldl (fun m entry => m.insert entry.1 entry.2) m).entries = m.entries ++ entries
  | [], m, _ => (List.append_nil m.entries).symm
  | (key, value) :: entries, m, h => by
    have hkey : key ∉ m.keys := fun hmem =>
      (List.nodup_append.mp h).2.2 key hmem key List.mem_cons_self rfl
    have hkeys : (m.insert key value).keys = m.keys ++ [key] := by
      rw [keys_insert, if_neg hkey]
    have hinsert : (m.insert key value).entries = m.entries ++ [(key, value)] := put_of_notMem value hkey
    rw [List.foldl_cons, entries_foldl_insert (by rwa [hkeys, List.append_assoc]), hinsert, List.append_assoc]
    rfl

theorem entries_ofList {entries : List (κ × α)} (h : (entries.map Prod.fst).Nodup) :
    (ofList entries).entries = entries := entries_foldl_insert h

theorem ofList_entries (m : OrderedMap κ α) : ofList m.entries = m :=
  eq_of_entries (entries_ofList m.nodup)

/-! ### How many entries there are -/

theorem length_put_le (key : κ) (value : α) : ∀ entries : List (κ × α),
    (put key value entries).length ≤ entries.length + 1
  | [] => Nat.le_refl 1
  | entry :: entries => by
    rw [put]
    split
    · exact Nat.le_succ _
    · exact Nat.succ_le_succ (length_put_le key value entries)

theorem size_foldl_insert_le : ∀ (entries : List (κ × α)) (m : OrderedMap κ α),
    (entries.foldl (fun m entry => m.insert entry.1 entry.2) m).size ≤ m.size + entries.length
  | [], m => Nat.le_refl m.size
  | (key, value) :: entries, m => by
    have hput : (m.insert key value).size ≤ m.size + 1 := length_put_le key value m.entries
    have hrest := size_foldl_insert_le entries (m.insert key value)
    rw [List.foldl_cons, List.length_cons]
    exact Nat.le_trans hrest (by omega)

theorem size_ofList_le (entries : List (κ × α)) : (ofList entries).size ≤ entries.length :=
  Nat.le_trans (size_foldl_insert_le entries empty) (Nat.le_of_eq (Nat.zero_add _))

end DrillCode.OrderedMap
