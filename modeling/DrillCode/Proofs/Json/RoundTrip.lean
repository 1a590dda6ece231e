import DrillCode.Json.Practice
import DrillCode.Proofs.Json.Records

/-! # Contents and problems are read back

The contents of a payload and the problems made of them are read back from their texts, with all their labels,
generators and variables in the same order. -/

namespace DrillCode
open Json (Value)
open Json.Value (gives_text gives_nat gives_int gives_list gives_map record?_record)

namespace Tag

theorem ofName?_name (tag : Tag) : ofName? tag.name = some tag := by
  cases tag <;> decide

theorem gives_toJson (tag : Tag) : tag.toJson.Gives ofJson? tag := ⟨.text tag.name, ofName?_name tag⟩

theorem gives_listToJson (tags : List Tag) : (listToJson tags).Gives listOfJson? tags :=
  gives_list fun tag _ => tag.gives_toJson

end Tag

/-! ### Contents -/

theorem Range.gives_toJson (range : Range) : range.toJson.Gives Range.ofJson? range where
  plain := .record (by simp [(gives_int _).plain])
  read_eq := by
    rw [Range.ofJson?, Range.toJson, record?_record (by rfl) (by decide)]
    simp only [List.map_cons, List.map_nil, Option.bind_eq_bind, Option.bind_some, (gives_int _).read_eq]
    rfl

theorem Solution.gives_toJson (s : Solution) : s.toJson.Gives Solution.ofJson? s where
  plain := .record (by simp [(gives_text _).plain, (Tag.gives_listToJson _).plain])
  read_eq := by
    rw [Solution.ofJson?, Solution.toJson, record?_record (by rfl) (by decide)]
    simp only [List.map_cons, List.map_nil, Option.bind_eq_bind, Option.bind_some, (gives_text _).read_eq,
      (Tag.gives_listToJson _).read_eq]
    rfl

theorem Exercise.gives_toJson (e : Exercise) : e.toJson.Gives Exercise.ofJson? e where
  plain := .record (by simp [(gives_text _).plain, (Tag.gives_listToJson _).plain])
  read_eq := by
    rw [Exercise.ofJson?, Exercise.toJson, record?_record (by rfl) (by decide)]
    simp only [List.map_cons, List.map_nil, Option.bind_eq_bind, Option.bind_some, (gives_text _).read_eq,
      (Tag.gives_listToJson _).read_eq]
    rfl

theorem Contents.gives_toJson (c : Contents) : c.toJson.Gives Contents.ofJson? c := by
  have hlabels := gives_map Tag.name c.labels Tag.ofName?_name gives_text
  have hgenerators := gives_map (fun key => key) c.generators (fun _ => rfl) Range.gives_toJson
  have hsolutions := gives_list fun s (_ : s ∈ c.solutions) => s.gives_toJson
  have hexercises := gives_list fun e (_ : e ∈ c.exercises) => e.gives_toJson
  refine ⟨.record ?_, ?_⟩
  · simp only [List.forall_mem_cons]
    exact ⟨hlabels.plain, hgenerators.plain, hsolutions.plain, hexercises.plain, List.forall_mem_nil _⟩
  · rw [Contents.ofJson?, Contents.toJson, record?_record (by rfl) (by decide)]
    simp only [List.map_cons, List.map_nil, Option.bind_eq_bind, Option.bind_some, hlabels.read_eq,
      hgenerators.read_eq, hsolutions.read_eq, hexercises.read_eq]
    rfl

/-! ### Problems -/

theorem Variables.gives_toJson (values : Variables) : values.toJson.Gives (Value.map? some Value.int?) values :=
  gives_map (fun key => key) values (fun _ => rfl) gives_int

namespace Problem

/-- A question that is missing is written as null and read as missing. -/
theorem gives_question (question : Option String) :
    (question.elim Value.null Value.text).Gives (fun v => questionOfJson? (some v)) question := by
  cases question with
  | none => exact ⟨.null, rfl⟩
  | some q => exact ⟨.text q, rfl⟩

theorem gives_toJson {p : Problem} (hid : p.id < wordCount) : p.toJson.Gives Problem.ofJson? p := by
  have hnumber := gives_nat hid
  have hquestion := gives_question p.question
  have htags := Tag.gives_listToJson p.tags
  have hvalues := p.values.gives_toJson
  refine ⟨.record ?_, ?_⟩
  · simp only [List.forall_mem_cons]
    exact ⟨hnumber.plain, .text _, .text _, hquestion.plain, .text _, htags.plain, hvalues.plain,
      List.forall_mem_nil _⟩
  · rw [Problem.ofJson?, Problem.toJson, record?_record (by rfl) (by decide)]
    simp only [List.map_cons, List.map_nil, Option.bind_eq_bind, Option.bind_some, hnumber.read_eq,
      hquestion.read_eq, htags.read_eq, hvalues.read_eq, (gives_text _).read_eq]
    rfl

end Problem

/-- Contents, and problems whose number is a word, are read back from the texts they are written as, with the
    entries of every map in their order. -/
theorem Json.contents_and_problem_read_back :
    (∀ c : Contents, ∀ text ∈ c.toJson.texts, (Json.parse? text).bind Contents.ofJson? = some c) ∧
    (∀ p : Problem, p.id < wordCount →
      ∀ text ∈ p.toJson.texts, (Json.parse? text).bind Problem.ofJson? = some p) :=
  ⟨fun c _ htext => c.gives_toJson.parse?_texts htext,
    fun _ hid _ htext => (Problem.gives_toJson hid).parse?_texts htext⟩

/-- Contents whose names and texts look like JSON themselves. -/
def Contents.quoting : Contents where
  labels := .ofList [(.star, "\\u0041 \"×\""), (.minus, "\n\x01")]
  generators := .ofList [("\",\"b", ⟨Int64.minValue, 3⟩), ("min", ⟨0, -1⟩)]
  solutions := []
  exercises := [⟨"7: a\\b", [.moreOperands]⟩]

/-- A problem without a question and with the greatest number. -/
def Problem.unasked : Problem := ⟨wordCount - 1, "", "null", none, "1\t", [], .ofList [("b", 2), ("a\"", -3)]⟩

theorem Json.contents_and_problem_read_back_quoting :
    Problem.unasked.id < wordCount ∧
    (Json.parse? Contents.quoting.toJson.compact).bind Contents.ofJson? = some Contents.quoting ∧
    (Json.parse? Problem.unasked.toJson.compact).bind Problem.ofJson? = some Problem.unasked := by
  have hid : Problem.unasked.id < wordCount := by decide
  exact ⟨hid, Json.contents_and_problem_read_back.1 _ _ List.mem_cons_self,
    Json.contents_and_problem_read_back.2 _ hid _ List.mem_cons_self⟩

end DrillCode
