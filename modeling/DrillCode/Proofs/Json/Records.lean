import DrillCode.Json.Reader
import DrillCode.Proofs.Json.Parser
import DrillCode.Proofs.OrderedMap

/-! # Values give back what they were made of

A value gives a datum if the datum is read from it. Numbers, texts, lists, maps and records give the data they
were made of, and so do their texts. -/

namespace DrillCode.Json.Value

/-- The value has texts only, and what it was made of is read from it. -/
structure Gives {α : Type} (v : Value) (read? : Value → Option α) (x : α) : Prop where
  plain : v.Plain
  read_eq : read? v = some x

/-- What a value was made of is read from its texts. -/
theorem Gives.parse?_texts {α : Type} {v : Value} {read? : Value → Option α} {x : α} (h : v.Gives read? x)
    {text : List Char} (htext : text ∈ v.texts) : (parse? text).bind read? = some x := by
  rw [h.plain.parse?_texts htext, Option.bind_some, h.read_eq]

theorem gives_text (s : String) : (text s).Gives text? s := ⟨.text s, rfl⟩

theorem gives_nat {n : Nat} (hn : n < wordCount) : (nat n).Gives nat? n where
  plain := .number _
  read_eq := if_pos (by simpa [Number.isInteger] using hn)

theorem int?_toInt (i : Int64) : Number.int? ⟨decide (i.toInt < 0), i.toInt.natAbs, [], none⟩ = some i := by
  have hlow : -2 ^ 63 ≤ i.toInt := Int64.le_toInt i
  have hhigh : i.toInt < 2 ^ 63 := Int64.toInt_lt i
  have hinteger : Number.isInteger ⟨decide (i.toInt < 0), i.toInt.natAbs, [], none⟩ = true := rfl
  rw [Number.int?, hinteger, if_neg (by decide)]
  by_cases h : i.toInt < 0
  · have hbounds : (decide (0 < i.toInt.natAbs) && decide (2 * i.toInt.natAbs ≤ wordCount)) = true := by
      rw [Bool.and_eq_true, decide_eq_true_iff, decide_eq_true_iff, wordCount]
      omega
    have habs : -(i.toInt.natAbs : Int) = i.toInt := by omega
    rw [decide_eq_true h, if_pos rfl, if_pos hbounds, habs, Int64.ofInt_toInt]
  · have hbound : 2 * i.toInt.natAbs < wordCount := by
      rw [wordCount]
      omega
    have habs : (i.toInt.natAbs : Int) = i.toInt := by omega
    rw [decide_eq_false h, if_neg Bool.false_ne_true, if_pos hbound, habs, Int64.ofInt_toInt]

theorem gives_int (i : Int64) : (int i.toInt).Gives int? i := ⟨.number _, int?_toInt i⟩

/-! ### Lists -/

theorem mapM_map {α β γ : Type} {read? : β → Option γ} {write : α → β} {f : α → γ} : ∀ {xs : List α},
    (∀ x ∈ xs, read? (write x) = some (f x)) → (xs.map write).mapM read? = some (xs.map f)
  | [], _ => rfl
  | x :: xs, h => by
    rw [List.map_cons, List.mapM_cons, h x List.mem_cons_self, mapM_map fun y hy => h y (List.mem_cons_of_mem x hy)]
    rfl

theorem gives_list {α : Type} {item? : Value → Option α} {write : α → Value} {xs : List α}
    (h : ∀ x ∈ xs, (write x).Gives item? x) : (array (xs.map write)).Gives (list? item?) xs where
  plain := .array fun v hv => by
    obtain ⟨x, hx, rfl⟩ := List.mem_map.mp hv
    exact (h x hx).plain
  read_eq := by
    rw [list?, mapM_map fun x hx => (h x hx).read_eq, List.map_id']

/-! ### Maps -/

theorem gives_map {κ α : Type} [DecidableEq κ] {key? : String → Option κ} {value? : Value → Option α}
    {write : α → Value} (name : κ → String) (m : OrderedMap κ α) (hkey : ∀ key, key? (name key) = some key)
    (hvalue : ∀ x, (write x).Gives value? x) :
    (record (m.entries.map fun entry => (name entry.1, write entry.2))).Gives (map? key? value?) m where
  plain := .record fun field hfield => by
    obtain ⟨entry, -, rfl⟩ := List.mem_map.mp hfield
    exact (hvalue entry.2).plain
  read_eq := by
    have hentries : m.entries.map (fun entry => (entry.1, entry.2)) = m.entries := List.map_id' _
    rw [record, List.map_map, map?, mapM_map (f := fun entry => (entry.1, entry.2))]
    · -- The keys are distinct, so that inserting the entries one by one gives the same entries.
      rw [hentries]
      exact congrArg some m.ofList_entries
    · intro entry _
      simp [hkey, (hvalue _).read_eq]

/-! ### Records -/

theorem filter_name : ∀ {fields : List (String × Value)}, (fields.map Prod.fst).Nodup →
    ∀ {field : String × Value}, field ∈ fields →
      fields.filter (fun f => f.1 == field.1) = [field]
  | first :: fields, h, field, hfield => by
    rw [List.map_cons, List.nodup_cons] at h
    rcases List.mem_cons.mp hfield with rfl | hmem
    · have hrest : fields.filter (fun f => f.1 == field.1) = [] := List.filter_eq_nil_iff.mpr fun f hf heq =>
        h.1 (beq_iff_eq.mp heq ▸ List.mem_map_of_mem hf)
      rw [List.filter_cons_of_pos (by simp), hrest]
    · have hne : first.1 ≠ field.1 := fun heq => h.1 (heq ▸ List.mem_map_of_mem hmem)
      rw [List.filter_cons_of_neg (by simpa using hne), filter_name h.2 hmem]

theorem field?_of_mem {fields : List (String × Value)} (h : (fields.map Prod.fst).Nodup) {field : String × Value}
    (hfield : field ∈ fields) :
    field? (fields.map fun field => (some field.1, field.2)) field.1 = some (some field.2) := by
  have hfilter : (fields.map fun f => (some f.1, f.2)).filter (fun f => f.1 == some field.1) =
      [(some field.1, field.2)] := by
    rw [List.filter_map]
    show (fields.filter fun f => some f.1 == some field.1).map _ = _
    simp only [Option.some_beq_some, filter_name h hfield, List.map_cons, List.map_nil]
  rw [field?, hfilter]

/-- The fields of a record with different names are found by their names. -/
theorem record?_record {fields : List (String × Value)} {names : List String} (hnames : fields.map Prod.fst = names)
    (h : names.Nodup) : (record fields).record? names = some (fields.map fun field => some field.2) := by
  subst hnames
  have htexts : (fields.map fun field => (some field.1, field.2)).all (fun field => field.1.isSome) = true := by
    simp
  rw [record, record?, fields?, if_pos htexts, mapM_map]
  exact fun field hfield => field?_of_mem h hfield

end DrillCode.Json.Value
