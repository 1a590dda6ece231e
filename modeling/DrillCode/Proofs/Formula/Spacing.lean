import DrillCode.Formula.Compile
import DrillCode.Proofs.Formula.Lexing
import DrillCode.Proofs.Text.Replace

/-! # Spacing

White space behind a sign, unless it is a minus sign, or in front of any sign means nothing, and all white space means
the same. So a text that is spaced otherwise is compiled to the same code, whatever else it holds, or it is refused as
well. -/

namespace DrillCode.Formula
open Lexeme (lex)

/-! ### Texts that are read alike -/

/-- The texts have the same lexemes behind any text. -/
def Alike (text other : List Char) : Prop := ∀ before start, lex start (before ++ text) = lex start (before ++ other)

section
variable {text other spaces others : List Char} {c : Char}

/-- It is enough that the texts have the same lexemes by themselves if nothing goes on with their first characters. -/
theorem Alike.of_ends (htext : ∀ c, text.head? = some c → Ends c) (hother : ∀ c, other.head? = some c → Ends c)
    (h : ∀ start, lex start text = lex start other) : Alike text other
  | [], start => h start
  | c :: before, start => by
    -- Each run that starts in front of the two texts ends there at the latest.
    obtain ⟨htake, hdrop⟩ := takeWhile_append_of_head (fun x hx => (htext x hx).1) before
    obtain ⟨htake', hdrop'⟩ := takeWhile_append_of_head (fun x hx => (hother x hx).1) before
    obtain ⟨htakeWord, hdropWord⟩ := takeWhile_append_of_head (fun x hx => (htext x hx).2) before
    obtain ⟨htakeWord', hdropWord'⟩ := takeWhile_append_of_head (fun x hx => (hother x hx).2) before
    have hnext (p : Char → Bool) := of_ends htext hother h (before.dropWhile p)
    have hrest := of_ends htext hother h before
    rw [List.cons_append, List.cons_append, lex_cons, lex_cons, htake, hdrop, htake', hdrop', htakeWord, hdropWord,
      htakeWord', hdropWord', hnext, hnext, hrest, hrest]
termination_by before => before.length
decreasing_by
  all_goals
    have hlength (p : Char → Bool) := (List.dropWhile_sublist (l := before) p).length_le
    simp only [List.length_cons]
    first | omega | exact Nat.lt_succ_of_le (hlength _)

theorem Alike.cons (h : Alike text other) (c : Char) : Alike (c :: text) (c :: other) := fun before start => by
  rw [List.append_cons before c text, List.append_cons before c other]
  exact h (before ++ [c]) start

theorem ends_of_append (hspaces : ∀ s ∈ spaces, Text.isSpace s = true)
    (htext : spaces = [] → ∀ c, text.head? = some c → Ends c) : ∀ c, (spaces ++ text).head? = some c → Ends c := by
  intro c hc
  cases spaces with
  | nil => exact htext rfl c hc
  | cons space spaces =>
    cases hc
    exact ends_of_isSpace (hspaces _ List.mem_cons_self)

theorem alike_spaces (hspaces : ∀ s ∈ spaces, Text.isSpace s = true) (hothers : ∀ s ∈ others, Text.isSpace s = true)
    (htext : spaces = [] ∨ others = [] → ∀ c, text.head? = some c → Ends c) : Alike (spaces ++ text) (others ++ text) :=
  .of_ends (ends_of_append hspaces fun h => htext (.inl h)) (ends_of_append hothers fun h => htext (.inr h))
    fun _ => (lex_spaces hspaces).trans (lex_spaces hothers).symm

theorem alike_behind (hc : c ∈ signs) (hminus : c ≠ '-') (hspaces : ∀ s ∈ spaces, Text.isSpace s = true) :
    Alike (c :: text) (c :: (spaces ++ text)) := by
  have hends : ∀ {text : List Char} d, (c :: text).head? = some d → Ends d := by
    rintro text d ⟨⟩
    exact (sign_class hc).2.2
  refine .of_ends hends hends fun start => ?_
  have hstart : c = '-' → start = false := fun h => absurd h hminus
  rw [lex_sign hc hstart, lex_sign hc hstart, lex_spaces hspaces]

end

/-! ### Sides that are read alike -/

/-- The first sides are read alike behind any text, the others by themselves. -/
inductive SidesAlike : (sides others : List (List Char)) → Prop
  | intro {first other : List Char} {more others : List (List Char)} (hfirst : Alike first other)
    (hmore : more.map (lex true) = others.map (lex true)) : SidesAlike (first :: more) (other :: others)

namespace SidesAlike
variable {sides others : List (List Char)} {text other : List Char}

theorem map_lex (h : SidesAlike sides others) : sides.map (lex true) = others.map (lex true) := by
  cases h with
  | @intro first other more others hfirst hmore =>
    have hlex : lex true first = lex true other := hfirst [] true
    rw [List.map_cons, List.map_cons, hlex, hmore]

theorem cons (h : SidesAlike (text.splitOn '=') (other.splitOn '=')) (c : Char) :
    SidesAlike ((c :: text).splitOn '=') ((c :: other).splitOn '=') := by
  by_cases hc : c = '='
  · rw [hc, Text.splitOn_cons_self, Text.splitOn_cons_self]
    exact .intro (fun _ _ => rfl) h.map_lex
  · generalize hsides : text.splitOn '=' = sides, hothers : other.splitOn '=' = others at h
    cases h with
    | intro hfirst hmore =>
      rw [Text.splitOn_cons_of_ne hc hsides, Text.splitOn_cons_of_ne hc hothers]
      exact .intro (hfirst.cons c) hmore

theorem append (h : SidesAlike (text.splitOn '=') (other.splitOn '=')) : ∀ before : List Char,
    SidesAlike ((before ++ text).splitOn '=') ((before ++ other).splitOn '=')
  | [] => h
  | c :: before => (h.append before).cons c

end SidesAlike

/-! ### Texts that are spaced otherwise -/

/-- The other text has more white space behind a sign that is no minus sign or in front of any sign, or other white space
    where the first one has some. -/
inductive Respaced : (text other : List Char) → Prop
  | behind {c : Char} (hc : c ∈ '=' :: signs) (hminus : c ≠ '-') {spaces : List Char}
    (hspaces : ∀ s ∈ spaces, Text.isSpace s = true) (before text : List Char) :
    Respaced (before ++ c :: text) (before ++ c :: (spaces ++ text))
  | front {c : Char} (hc : c ∈ '=' :: signs) {spaces : List Char} (hspaces : ∀ s ∈ spaces, Text.isSpace s = true)
    (before text : List Char) : Respaced (before ++ c :: text) (before ++ (spaces ++ c :: text))
  | replaced {spaces others : List Char} (hne : spaces ≠ []) (hspaces : ∀ s ∈ spaces, Text.isSpace s = true)
    (hne' : others ≠ []) (hothers : ∀ s ∈ others, Text.isSpace s = true) (before text : List Char) :
    Respaced (before ++ (spaces ++ text)) (before ++ (others ++ text))

section
variable {text other spaces others : List Char} {c : Char}

theorem notMem_of_spaces (hspaces : ∀ s ∈ spaces, Text.isSpace s = true) : '=' ∉ spaces := fun h => by
  have hspace := hspaces '=' h
  cases hspace

theorem ends_of_mem (hc : c ∈ '=' :: signs) : Ends c := by
  rcases List.mem_cons.mp hc with rfl | hc
  · refine ⟨rfl, ?_⟩
    rw [Lexeme.isWordChar, Text.isAlphanumeric_ascii (by decide)]
    decide
  · exact (sign_class hc).2.2

theorem Respaced.sidesAlike (h : Respaced text other) : SidesAlike (text.splitOn '=') (other.splitOn '=') := by
  cases h with
  | @behind c hc hminus spaces hspaces before text =>
    refine .append ?_ before
    obtain ⟨first, more, hpieces⟩ := Text.exists_splitOn '=' text
    have hspaced := Text.splitOn_append_of_notMem hpieces (notMem_of_spaces hspaces)
    by_cases hequals : c = '='
    · rw [hequals, Text.splitOn_cons_self, Text.splitOn_cons_self, hpieces, hspaced]
      exact .intro (fun _ _ => rfl) (by rw [List.map_cons, List.map_cons, lex_spaces hspaces])
    · rw [Text.splitOn_cons_of_ne hequals hpieces, Text.splitOn_cons_of_ne hequals hspaced]
      exact .intro (alike_behind ((List.mem_cons.mp hc).resolve_left hequals) hminus hspaces) rfl
  | @front c hc spaces hspaces before text =>
    refine .append ?_ before
    obtain ⟨first, more, hpieces⟩ := Text.exists_splitOn '=' (c :: text)
    rw [Text.splitOn_append_of_notMem hpieces (notMem_of_spaces hspaces), hpieces]
    have hnone : ∀ s ∈ [], Text.isSpace s = true := nofun
    refine .intro (alike_spaces hnone hspaces fun _ d hd => ?_) rfl
    obtain ⟨rest, rfl⟩ := List.head?_eq_some_iff.mp hd
    obtain ⟨rfl, -⟩ := List.cons_prefix_cons.mp (Text.prefix_of_splitOn hpieces)
    exact ends_of_mem hc
  | replaced hne hspaces hne' hothers before text =>
    refine .append ?_ before
    obtain ⟨first, more, hpieces⟩ := Text.exists_splitOn '=' text
    rw [Text.splitOn_append_of_notMem hpieces (notMem_of_spaces hspaces),
      Text.splitOn_append_of_notMem hpieces (notMem_of_spaces hothers)]
    exact .intro (alike_spaces hspaces hothers fun h => absurd h (not_or.mpr ⟨hne, hne'⟩)) rfl

end

/-! ### Code -/

/-- The program of a text with the code of its sides, of which there are two at most. -/
def assemble (source : String) : (sides : List (List Instruction)) → Except CompileError Program
  | [code] => .ok ⟨code ++ [.halt], false, source⟩
  | [left, right] => .ok ⟨left ++ right ++ [.equal, .halt], true, source⟩
  | _ => .error (.malformedEquation source)

theorem compile_eq (source : String) :
    compile source = assemble source ((source.toList.splitOn '=').map expressionCode) := by
  rw [compile]
  split
  · next hpieces => rw [hpieces]; rfl
  · next hpieces => rw [hpieces]; rfl
  · next hone htwo =>
    match hpieces : source.toList.splitOn '=' with
    | [] => rfl
    | [text] => exact absurd hpieces (hone text)
    | [left, right] => exact absurd hpieces (htwo left right)
    | _ :: _ :: _ :: _ => rfl

theorem map_expressionCode {sides others : List (List Char)} (h : sides.map (lex true) = others.map (lex true)) :
    sides.map expressionCode = others.map expressionCode := by
  have hcode : expressionCode = (fun lexemes => (Lexeme.toPostfix lexemes).filterMap Lexeme.instruction?) ∘ lex true :=
    rfl
  rw [hcode, ← List.map_map, h, List.map_map]

/-- A text that is spaced otherwise is compiled to the same program, but for the text itself, or refused as well. -/
theorem compile_respaced {source other : String} (h : Respaced source.toList other.toList) :
    (∀ p, compile source = .ok p → compile other = .ok { p with source := other }) ∧
      ∀ e, compile source = .error e → compile other = .error (.malformedEquation other) := by
  rw [compile_eq source, compile_eq other, map_expressionCode h.sidesAlike.map_lex]
  generalize (other.toList.splitOn '=').map expressionCode = sides
  match sides with
  | [] | _ :: _ :: _ :: _ => exact ⟨nofun, fun _ _ => rfl⟩
  | [code] =>
    refine ⟨fun p hp => ?_, nofun⟩
    cases hp
    rfl
  | [left, right] =>
    refine ⟨fun p hp => ?_, nofun⟩
    cases hp
    rfl

/-- White space is put in front of a minus sign, and between two equals signs. -/
theorem compile_respaced_junkSample :
    Respaced "a$-(2) =3".toList "a$\u00a0-(2) =3".toList ∧
      compile "a$\u00a0-(2) =3" = .ok ⟨[.load "a", .push 2, .sub, .push 3, .equal, .halt], true, "a$\u00a0-(2) =3"⟩ ∧
      Respaced "1==2".toList "1= =2".toList ∧ compile "1= =2" = .error (.malformedEquation "1= =2") := by
  have hminus : Respaced "a$-(2) =3".toList "a$\u00a0-(2) =3".toList :=
    @Respaced.front '-' (by decide) "\u00a0".toList (List.all_eq_true.mp rfl) "a$".toList "(2) =3".toList
  have hequals : Respaced "1==2".toList "1= =2".toList :=
    @Respaced.behind '=' (by decide) (by decide) " ".toList (List.all_eq_true.mp rfl) "1".toList "=2".toList
  have hcompile : compile "a$-(2) =3" =
      .ok ⟨[.load "a", .push 2, .sub, .push 3, .equal, .halt], true, "a$-(2) =3"⟩ := by decide +kernel
  exact ⟨hminus, (compile_respaced hminus).1 _ hcompile, hequals, (compile_respaced hequals).2 _ rfl⟩

end DrillCode.Formula
