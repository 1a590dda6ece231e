import DrillCode.Proofs.Payload.Decoded
import DrillCode.Proofs.Payload.Draft

/-! # Contents are written again

What was read from some bytes can be written, whatever the bytes were, and what is written then is read back. Only
white space at the start of an exercise gets lost: it came from the question, and now the whole exercise is the
text of an expression, which is read without white space at its ends. -/

namespace DrillCode

namespace Exercise

/-- The whole exercise as one name. -/
def outline (e : Exercise) : Outline := ⟨none, [.name e.expression], e.tags⟩

/-- The exercise without white space at its start. -/
def trimmed (e : Exercise) : Exercise :=
  { e with expression := String.ofList (Text.trimStart e.expression.toList) }

theorem rawText_outline (e : Exercise) : TokenRun.rawText e.outline.tokens = e.expression.toList :=
  List.flatMap_singleton Token.text (Token.name e.expression)

theorem Writable.readable {cap : Nat} {e : Exercise} (h : e.Writable) (hcap : e.expression.toList.length ≤ cap) :
    e.outline.Readable cap where
  question := nofun
  tokens token htoken := by
    obtain rfl := List.mem_singleton.mp htoken
    exact h.unbroken
  shows := by
    rw [rawText_outline]
    exact h.shows
  fits := by
    rw [rawText_outline]
    exact hcap

theorem Writable.exercise_outline {e : Exercise} (h : e.Writable) : e.outline.exercise = e.trimmed := by
  have htrim : e.outline.expression = Text.trimStart e.expression.toList := by
    rw [Outline.expression, rawText_outline]
    exact Text.trimEnd_trimStart h.shows h.trimmed
  show Exercise.mk (template "" (String.ofList e.outline.expression)) e.tags = _
  rw [htrim]
  rfl

theorem trimmed_eq_self {e : Exercise} (h : ∀ c ∈ e.expression.toList.head?, Text.isSpace c = false) :
    e.trimmed = e := by
  rw [trimmed, Text.trimStart_eq_self h, String.ofList_toList]

end Exercise

namespace Contents

/-- The payload that is written from the contents, with its labels in front of its generators. -/
def draft (c : Contents) : Draft where
  lead := 0
  offset := 22
  entries := c.labels.entries.map (fun item => .label item.1 item.2) ++
    c.generators.entries.map fun item => .generator item.1 item.2
  solutions := c.solutions
  outlines := c.exercises.map Exercise.outline

/-- The contents without white space at the start of an exercise. -/
def trimmed (c : Contents) : Contents := { c with exercises := c.exercises.map Exercise.trimmed }

/-! ### Writing -/

theorem labels_draft (c : Contents) : HeaderEntry.labels c.draft.entries = c.labels := by
  have hown : (c.labels.entries.map fun item => HeaderEntry.label item.1 item.2).filterMap HeaderEntry.label? =
      c.labels.entries := by
    rw [List.filterMap_map]
    exact List.filterMap_some
  have hother : (c.generators.entries.map fun item => HeaderEntry.generator item.1 item.2).filterMap
      HeaderEntry.label? = [] := by
    rw [List.filterMap_map]
    exact List.filterMap_eq_nil_iff.mpr fun _ _ => rfl
  rw [HeaderEntry.labels, draft, List.filterMap_append, hown, hother, List.append_nil, OrderedMap.ofList_entries]

theorem generators_draft (c : Contents) : HeaderEntry.generators c.draft.entries = c.generators := by
  have hother : (c.labels.entries.map fun item => HeaderEntry.label item.1 item.2).filterMap
      HeaderEntry.generator? = [] := by
    rw [List.filterMap_map]
    exact List.filterMap_eq_nil_iff.mpr fun _ _ => rfl
  have hown : (c.generators.entries.map fun item => HeaderEntry.generator item.1 item.2).filterMap
      HeaderEntry.generator? = c.generators.entries := by
    rw [List.filterMap_map]
    exact List.filterMap_some
  rw [HeaderEntry.generators, draft, List.filterMap_append, hother, hown, List.nil_append, OrderedMap.ofList_entries]

theorem Writable.readable {cap : Nat} {c : Contents} (h : c.Writable)
    (hcap : ∀ e ∈ c.exercises, e.expression.toList.length ≤ cap) : c.draft.Readable cap where
  entries entry hentry := by
    rcases List.mem_append.mp hentry with hentry | hentry
    · obtain ⟨item, hitem, rfl⟩ := List.mem_map.mp hentry
      exact h.labels item hitem
    · obtain ⟨item, hitem, rfl⟩ := List.mem_map.mp hentry
      exact h.generators item hitem
  solutions := h.solutions
  outlines o ho := by
    obtain ⟨e, he, rfl⟩ := List.mem_map.mp ho
    exact (h.exercises e he).readable (hcap e he)

theorem Writable.contents_draft {c : Contents} (h : c.Writable) : c.draft.contents = c.trimmed := by
  have hexercises : c.draft.outlines.map Outline.exercise = c.exercises.map Exercise.trimmed := by
    rw [draft, List.map_map]
    exact List.map_congr_left fun e he => (h.exercises e he).exercise_outline
  rw [Draft.contents, labels_draft, generators_draft, hexercises]
  rfl

theorem trimmed_eq_self {c : Contents}
    (h : ∀ e ∈ c.exercises, ∀ x ∈ e.expression.toList.head?, Text.isSpace x = false) : c.trimmed = c := by
  have hexercises : c.exercises.map Exercise.trimmed = c.exercises :=
    (List.map_congr_left fun e he => Exercise.trimmed_eq_self (h e he)).trans (List.map_id c.exercises)
  rw [trimmed, hexercises]

/-! ### Reading back -/

/-- Whatever was decoded can be written, and decoding that gives it back, without white space at the start of an
    exercise. -/
theorem decode_rewritten {settings : PayloadSettings} {bytes : List UInt8} {c : Contents}
    (h : decode settings bytes = .ok c) {cap : Nat} (hcap : ∀ e ∈ c.exercises, e.expression.toList.length ≤ cap) :
    ∃ codes, Part.writeAll c.draft.parts = .ok codes ∧
      decode ⟨22, cap⟩ (payloadBytes codes) = .ok c.trimmed ∧
      ((∀ e ∈ c.exercises, ∀ x ∈ e.expression.toList.head?, Text.isSpace x = false) →
        decode ⟨22, cap⟩ (payloadBytes codes) = .ok c) := by
  have hwritable := writable_of_decode h
  have hreadable := hwritable.readable hcap
  obtain ⟨codes, hcodes, hbits⟩ := hreadable.written
  have hbytes : Bits.ofBytes (payloadBytes codes) =
      c.draft.bits ++ List.replicate (Bits.padding c.draft.bits.length) false := by
    rw [payloadBytes, Bits.ofBytes_toBytes, hbits]
  have hdecode : decode ⟨22, cap⟩ (payloadBytes codes) = .ok c.trimmed := by
    rw [← hwritable.contents_draft]
    exact Draft.decode_whole hreadable hbytes
  refine ⟨codes, hcodes, hdecode, fun hstart => ?_⟩
  rw [hdecode, trimmed_eq_self hstart]

/-- A label of a byte that is no UTF-8, and an exercise behind a question of one space. -/
def replaced : Contents where
  labels := .ofList [(.plus, "\uFFFD")]
  generators := .empty
  solutions := []
  exercises := [⟨" : a", [.plus]⟩]

theorem decode_rewritten_replaced :
    decode .standard [0, 0, 1, 95, 240, 48, 98, 0, 96, 194, 15, 144] = .ok replaced ∧
      (∀ e ∈ replaced.exercises, e.expression.toList.length ≤ 4) ∧
      ∃ codes, Part.writeAll replaced.draft.parts = .ok codes ∧
        decode ⟨22, 4⟩ (payloadBytes codes) = .ok replaced.trimmed ∧
        ((∀ e ∈ replaced.exercises, ∀ x ∈ e.expression.toList.head?, Text.isSpace x = false) →
          decode ⟨22, 4⟩ (payloadBytes codes) = .ok replaced) := by
  have hdecode : decode .standard [0, 0, 1, 95, 240, 48, 98, 0, 96, 194, 15, 144] = .ok replaced := by
    decide +kernel
  have hcap : ∀ e ∈ replaced.exercises, e.expression.toList.length ≤ 4 := by decide
  exact ⟨hdecode, hcap, decode_rewritten hdecode hcap⟩

end Contents
end DrillCode
