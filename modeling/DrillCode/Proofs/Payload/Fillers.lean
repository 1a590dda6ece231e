import DrillCode.Proofs.Payload.RoundTrip
import Mathlib.Data.List.Forall2

/-! # Codes that are passed over change nothing

Some codes are set aside: kinds of entry in the header, numbers in a list of tags, and tokens without text.
Any number of them, wherever such a code may stand, leave what is read of a payload as it is, although they
move all that comes behind. In a header or an expression they are entries or tokens of their own, which
show nothing; in a list of tags they are numbers that no tag has. -/

namespace DrillCode

/-- The bits are the codes of the items one behind the other, with fillers at any places. -/
inductive Bits.WithFillers {α : Type} (code : α → List Bool) (Filler : List Bool → Prop) : List α → List Bool → Prop
  | nil : WithFillers code Filler [] []
  | item (a : α) {items : List α} {bits : List Bool} (h : WithFillers code Filler items bits) :
    WithFillers code Filler (a :: items) (code a ++ bits)
  | filler {filler : List Bool} (hfiller : Filler filler) {items : List α} {bits : List Bool}
    (h : WithFillers code Filler items bits) : WithFillers code Filler items (filler ++ bits)

theorem Bits.withFillers_flatMap {α : Type} (code : α → List Bool) (Filler : List Bool → Prop) :
    ∀ items : List α, Bits.WithFillers code Filler items (items.flatMap code)
  | [] => .nil
  | a :: items => by
    rw [List.flatMap_cons]
    exact .item a (withFillers_flatMap code Filler items)

/-! ### In the header -/

namespace HeaderEntry

/-- An entry of a kind that is set aside. -/
inductive Filler : List Bool → Prop
  | reserved {kind : Nat} (hpos : 0 < kind) (hlt : kind < 16) : Filler (Bits.ofNat 2 2 ++ Bits.ofNat 4 kind)

/-- A header with fillers is the header of more entries, with the same labels and generators. -/
theorem exists_entries {entries : List HeaderEntry} {bits : List Bool}
    (hbits : Bits.WithFillers HeaderEntry.bits Filler entries bits) (h : ∀ entry ∈ entries, entry.Readable) :
    ∃ more : List HeaderEntry, HeaderCodes more (bits ++ endBits) ∧
      more.filterMap label? = entries.filterMap label? ∧
      more.filterMap generator? = entries.filterMap generator? := by
  induction hbits with
  | nil => exact ⟨[], .nil, rfl, rfl⟩
  | item entry _ ih =>
    obtain ⟨more, hcodes, hlabels, hgenerators⟩ := ih fun x hx => h x (List.mem_cons_of_mem entry hx)
    refine ⟨entry :: more, ?_, ?_, ?_⟩
    · rw [List.append_assoc]
      exact .cons (codes_bits (h entry List.mem_cons_self)) hcodes
    · rw [List.filterMap_cons, List.filterMap_cons, hlabels]
    · rw [List.filterMap_cons, List.filterMap_cons, hgenerators]
  | filler hfiller _ ih =>
    obtain ⟨more, hcodes, hlabels, hgenerators⟩ := ih h
    obtain @⟨kind, hpos, hlt⟩ := hfiller
    refine ⟨reserved kind :: more, ?_, hlabels, hgenerators⟩
    rw [List.append_assoc]
    exact .cons (.reserved hpos hlt) hcodes

end HeaderEntry

/-! ### Among tags -/

namespace TagList

/-- A number that no tag has and that does not end the list. -/
inductive Filler : List Bool → Prop
  | number {n : Nat} (hlow : 4 < n) (hlt : n < 8) : Filler (Bits.ofNat 3 n)

/-- A list of tags in which fillers may stand, with its end. -/
inductive WithFillers (tags : List Tag) : List Bool → Prop
  | mk {bits : List Bool} (h : Bits.WithFillers (fun tag : Tag => Bits.ofNat 3 tag.listCode) Filler tags bits) :
    WithFillers tags (bits ++ Bits.ofNat 3 0)

theorem withFillers_bits (tags : List Tag) : WithFillers tags (bits tags) :=
  .mk (Bits.withFillers_flatMap _ Filler tags)

theorem WithFillers.reads {tags : List Tag} {code : List Bool} (h : WithFillers tags code) :
    Scan.Reads read code tags := by
  obtain ⟨hbits⟩ := h
  induction hbits with
  | nil => exact read_end_reads
  | item tag _ ih =>
    rw [List.append_assoc]
    exact read_tag_reads tag ih
  | filler hfiller _ ih =>
    obtain @⟨n, hlow, hlt⟩ := hfiller
    have hnone : Tag.ofListCode? n = none := by
      obtain ⟨k, rfl⟩ := Nat.exists_eq_add_of_lt hlow
      exact if_neg (by omega)
    have hread := read_number_reads (Nat.ne_of_gt (Nat.zero_lt_of_lt hlow)) hlt ih
    rw [hnone] at hread
    rwa [List.append_assoc]

end TagList

/-! ### In an expression -/

namespace Token

/-- A constant or an operand without text. -/
inductive Filler : List Bool → Prop
  | constant {kind : Nat} (hpos : 0 < kind) (hlt : kind < 4) : Filler (false :: Bits.ofNat 2 1 ++ Bits.ofNat 2 kind)
  | operand {kind : Nat} (hlow : 1 < kind) (hlt : kind < 4) : Filler (false :: Bits.ofNat 2 kind)

theorem Filler.exists_token {bits : List Bool} (h : Filler bits) :
    ∃ token : Token, token.Readable ∧ token.text = [] ∧ token.bits = bits := by
  obtain @⟨kind, hpos, hlt⟩ | @⟨kind, hlow, hlt⟩ := h
  · obtain rfl | hkind : kind = 1 ∨ kind = 2 ∨ kind = 3 := by omega
    · exact ⟨boolean, trivial, rfl, rfl⟩
    · exact ⟨reservedConstant kind, hkind, rfl, rfl⟩
  · have hkind : kind = 2 ∨ kind = 3 := by omega
    exact ⟨reservedOperand kind, hkind, rfl, rfl⟩

/-- An expression with fillers is that of more tokens, with the same text. -/
theorem exists_tokens {tokens : List Token} {code : List Bool} (hcode : Bits.WithFillers bits Filler tokens code)
    (h : ∀ token ∈ tokens, token.Readable) :
    ∃ more : List Token, (∀ token ∈ more, token.Readable) ∧ TokenRun.rawText more = TokenRun.rawText tokens ∧
      more.flatMap bits = code := by
  unfold TokenRun.rawText
  induction hcode with
  | nil => exact ⟨[], h, rfl, rfl⟩
  | item token _ ih =>
    obtain ⟨more, hmore, htext, rfl⟩ := ih fun x hx => h x (List.mem_cons_of_mem token hx)
    refine ⟨token :: more, List.forall_mem_cons.mpr ⟨h token List.mem_cons_self, hmore⟩, ?_, List.flatMap_cons⟩
    rw [List.flatMap_cons, List.flatMap_cons, htext]
  | filler hfiller _ ih =>
    obtain ⟨more, hmore, htext, rfl⟩ := ih h
    obtain ⟨token, htoken, hnone, rfl⟩ := hfiller.exists_token
    refine ⟨token :: more, List.forall_mem_cons.mpr ⟨htoken, hmore⟩, ?_, List.flatMap_cons⟩
    rw [List.flatMap_cons, hnone, List.nil_append, htext]

end Token

/-! ### In solutions -/

/-- The bits are the code of the solution, with fillers among its tags. -/
inductive Solution.WithFillers (s : Solution) : List Bool → Prop
  | mk {tags : List Bool} (htags : TagList.WithFillers s.tags tags) :
    WithFillers s (Bits.ofNat 2 1 ++ Bits.ofNat 4 0 ++ TextField.asciiBits s.question.toList ++
      Bits.ofNat 4 0 ++ TextField.asciiBits s.steps.toList ++ tags)

theorem Solution.withFillers_bits (s : Solution) : s.WithFillers s.bits := .mk (TagList.withFillers_bits s.tags)

theorem Solution.WithFillers.nextIs {s : Solution} {code : List Bool} (h : s.WithFillers code) (position : Nat)
    (rest : List Bool) : BitReader.nextIs ⟨position, code ++ rest⟩ 2 1 = true := by
  obtain ⟨_⟩ := h
  simp only [List.append_assoc]
  exact (nextIs_ofNat (by decide) (by decide)).trans (beq_self_eq_true 1)

theorem Solution.WithFillers.reads {s : Solution} {code : List Bool} (hcode : s.WithFillers code) (h : s.Readable) :
    Scan.Reads Solution.read code s := by
  obtain ⟨htags⟩ := hcode
  exact read_reads_tags h htags.reads

namespace SolutionPhase

theorem readEntries_withFillers {solutions : List Solution} {codes : List (List Bool)}
    (hcodes : List.Forall₂ Solution.WithFillers solutions codes) (h : ∀ s ∈ solutions, s.Readable) (rest : List Bool)
    (position : Nat) :
    readEntries ⟨position, codes.flatten ++ (Solution.endBits ++ rest)⟩ =
      ⟨solutions, none, ⟨position + codes.flatten.length, Solution.endBits ++ rest⟩⟩ := by
  induction hcodes generalizing position with
  | nil => exact readEntries_of_next (nextIs_ofNat (by decide) (by decide))
  | @cons s code solutions codes hcode _ ih =>
    have hread := hcode.reads (h s List.mem_cons_self) position (codes.flatten ++ (Solution.endBits ++ rest))
    have hothers := ih (fun x hx => h x (List.mem_cons_of_mem s hx)) (position + code.length)
    rw [List.flatten_cons, List.append_assoc, readEntries_of_ok (hcode.nextIs _ _) hread, hothers, List.length_append,
      Nat.add_assoc]

theorem read_withFillers {solutions : List Solution} {codes : List (List Bool)}
    (hcodes : List.Forall₂ Solution.WithFillers solutions codes) (h : ∀ s ∈ solutions, s.Readable) (rest : List Bool)
    (position : Nat) :
    read ⟨position, codes.flatten ++ (Solution.endBits ++ rest)⟩ =
      ⟨solutions, none, ⟨position + (codes.flatten ++ Solution.endBits).length, rest⟩⟩ := by
  rw [read, readEntries_withFillers hcodes h, Solution.endBits, skipMarker_ofNat (by decide),
    List.length_append, Nat.add_assoc]

end SolutionPhase

/-! ### In exercises -/

namespace Outline

/-- The bits are the code of the exercise, with fillers in its expression and among its tags. -/
inductive WithFillers (o : Outline) : List Bool → Prop
  | mk {tokens tags : List Bool} (htokens : Bits.WithFillers Token.bits Token.Filler o.tokens tokens)
      (htags : TagList.WithFillers o.tags tags) :
    WithFillers o (Bits.ofNat 2 1 ++ (Exercise.questionBits o.question ++ ((tokens ++ Token.endBits) ++ tags)))

theorem withFillers_bits (o : Outline) : o.WithFillers o.bits := by
  rw [Exercise.bits_eq]
  exact .mk (Bits.withFillers_flatMap _ _ o.tokens) (TagList.withFillers_bits o.tags)

theorem WithFillers.reads {cap : Nat} {o : Outline} {code : List Bool} (hcode : o.WithFillers code)
    (h : o.Readable cap) : Scan.Reads (Exercise.read cap) code (some o.exercise) := by
  obtain ⟨htokens, htags⟩ := hcode
  obtain ⟨more, hmore, htext, rfl⟩ := Token.exists_tokens htokens h.tokens
  have hreadable : Readable cap { o with tokens := more } :=
    { question := h.question, tokens := hmore, shows := htext ▸ h.shows, fits := htext ▸ h.fits }
  have hexercise : exercise { o with tokens := more } = o.exercise := by
    simp only [exercise, expression, htext]
  rw [← hexercise]
  exact Exercise.read_reads_tags hreadable htags.reads

end Outline

theorem Attempt.exercises_withFillers {cap : Nat} {outlines : List Outline} {codes : List (List Bool)}
    (hcodes : List.Forall₂ Outline.WithFillers outlines codes) (h : ∀ o ∈ outlines, o.Readable cap)
    (rest : List Bool) (position : Nat) :
    exercises cap ⟨position, codes.flatten ++ (Exercise.endBits ++ rest)⟩ = outlines.map Outline.exercise := by
  induction hcodes generalizing position with
  | nil => exact exercises_endBits cap position rest
  | @cons o code outlines codes hcode _ ih =>
    have hread := hcode.reads (h o List.mem_cons_self) position (codes.flatten ++ (Exercise.endBits ++ rest))
    rw [List.flatten_cons, List.append_assoc, exercises_of_some hread,
      ih (fun x hx => h x (List.mem_cons_of_mem o hx)), List.map_cons]

/-! ### In a whole payload -/

namespace Draft

/-- The bits are the code of the payload, with fillers in the header, among tags and in expressions. -/
inductive WithFillers (d : Draft) : List Bool → Prop
  | mk {header : List Bool} {solutions outlines : List (List Bool)}
      (hheader : Bits.WithFillers HeaderEntry.bits HeaderEntry.Filler d.entries header)
      (hsolutions : List.Forall₂ Solution.WithFillers d.solutions solutions)
      (houtlines : List.Forall₂ Outline.WithFillers d.outlines outlines) :
    WithFillers d (Bits.ofNat d.offset d.lead ++ (header ++ HeaderEntry.endBits ++
      (solutions.flatten ++ Solution.endBits ++ (outlines.flatten ++ Exercise.endBits))))

/-- The plain code of a payload is its code without any filler. -/
theorem withFillers_bits (d : Draft) : d.WithFillers d.bits := by
  have hsolutions : List.Forall₂ Solution.WithFillers d.solutions (d.solutions.map Solution.bits) :=
    List.forall₂_map_right_iff.mpr (List.forall₂_same.mpr fun s _ => s.withFillers_bits)
  have houtlines : List.Forall₂ Outline.WithFillers d.outlines (d.outlines.map Outline.bits) :=
    List.forall₂_map_right_iff.mpr (List.forall₂_same.mpr fun o _ => o.withFillers_bits)
  have hbits := WithFillers.mk (Bits.withFillers_flatMap _ _ d.entries) hsolutions houtlines
  rwa [← List.flatMap_def, ← List.flatMap_def] at hbits

theorem WithFillers.decode {cap : Nat} {d : Draft} {bits : List Bool} (hbits : d.WithFillers bits)
    (h : d.Readable cap) {bytes : List UInt8} {tail : List Bool} (hbytes : Bits.ofBytes bytes = bits ++ tail) :
    Contents.decode ⟨d.offset, cap⟩ bytes = .ok d.contents := by
  obtain @⟨header, solutions, outlines, hheader, hsolutions, houtlines⟩ := hbits
  obtain ⟨entries, hcodes, hlabels, hgenerators⟩ := HeaderEntry.exists_entries hheader h.entries
  simp only [List.append_assoc] at hbytes
  rw [Contents.decode, d.ofBytes_offset hbytes, ← List.append_assoc header, Contents.read, hcodes.reads]
  simp only [SolutionPhase.read_withFillers hsolutions h.solutions, Attempt.exercises_withFillers houtlines h.outlines,
    HeaderEntry.labels, HeaderEntry.generators, hlabels, hgenerators]
  rfl

/-- Fillers change nothing: a payload with any number of them is read as the one that is written without. -/
theorem decode_withFillers {cap : Nat} {d : Draft} (h : d.Readable cap) {bits : List Bool}
    (hbits : d.WithFillers bits) (more : List UInt8) :
    ∃ codes, Part.writeAll d.parts = .ok codes ∧
      Contents.decode ⟨d.offset, cap⟩ (Bits.toBytes bits ++ more) =
        Contents.decode ⟨d.offset, cap⟩ (payloadBytes codes) ∧
      Contents.decode ⟨d.offset, cap⟩ (payloadBytes codes) = .ok d.contents := by
  obtain ⟨codes, hcodes, hplain⟩ := h.written
  have hfilled : Bits.ofBytes (Bits.toBytes bits ++ more) =
      bits ++ (List.replicate (Bits.padding bits.length) false ++ Bits.ofBytes more) := by
    rw [Bits.ofBytes_append, Bits.ofBytes_toBytes, List.append_assoc]
  have hwritten : Bits.ofBytes (payloadBytes codes) =
      d.bits ++ List.replicate (Bits.padding d.bits.length) false := by
    rw [payloadBytes, Bits.ofBytes_toBytes, hplain]
  have hdecode := d.withFillers_bits.decode h hwritten
  exact ⟨codes, hcodes, (hbits.decode h hfilled).trans hdecode.symm, hdecode⟩

/-- Fillers in the header before, between and behind its entries, among both lists of tags, and of both kinds in
    the expression. -/
theorem decode_withFillers_sample : sample.Readable 500 ∧ ∃ bits, sample.WithFillers bits ∧
    bits.length = sample.bits.length + 3 * 6 + 3 * 3 + (5 + 3) ∧ ∃ codes, Part.writeAll sample.parts = .ok codes ∧
      Contents.decode ⟨22, 500⟩ (Bits.toBytes bits ++ [7, 255]) = Contents.decode ⟨22, 500⟩ (payloadBytes codes) ∧
      Contents.decode ⟨22, 500⟩ (payloadBytes codes) = .ok sample.contents := by
  have hreserved (kind : Nat) (h : 0 < kind ∧ kind < 16) := HeaderEntry.Filler.reserved h.1 h.2
  have hnumber (n : Nat) (h : 4 < n ∧ n < 8) := TagList.Filler.number h.1 h.2
  have hheader : Bits.WithFillers HeaderEntry.bits HeaderEntry.Filler sample.entries _ :=
    .filler (hreserved 1 (by decide)) (.item _ (.item _ (.filler (hreserved 8 (by decide)) (.item _
      (.filler (hreserved 15 (by decide)) .nil)))))
  have hsolution : TagList.WithFillers [.plus] _ :=
    .mk (.filler (hnumber 5 (by decide)) (.item _ (.filler (hnumber 6 (by decide)) .nil)))
  have houtline : TagList.WithFillers [.plus, .star] _ :=
    .mk (.item _ (.filler (hnumber 7 (by decide)) (.item _ .nil)))
  have htokens : Bits.WithFillers Token.bits Token.Filler [.name "a", .plus, .integer (-7)] _ :=
    .item _ (.filler (.constant Nat.one_pos (by decide)) (.item _ (.item _
      (.filler (.operand (Nat.lt_succ_self 1) (by decide)) .nil))))
  have hbits : sample.WithFillers _ := .mk hheader (.cons (.mk hsolution) .nil) (.cons (.mk htokens houtline) .nil)
  exact ⟨sample_readable, _, hbits, by decide +kernel, decode_withFillers sample_readable hbits [7, 255]⟩

end Draft
end DrillCode
