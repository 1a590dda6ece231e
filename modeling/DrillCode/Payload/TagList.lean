import DrillCode.Bits.Reader
import DrillCode.Tag

/-! # Lists of tags

A list of tags is written as three-bit numbers and ends with the number 0. Numbers that no tag has are
passed over. When the bits run out, reading stops in front of the number that is not whole. -/

namespace DrillCode.TagList

def bits (tags : List Tag) : List Bool :=
  tags.flatMap (fun tag => Bits.ofNat 3 tag.listCode) ++ Bits.ofNat 3 0

/-- Reads a list of tags with its end. -/
def read (r : BitReader) : Scanned (List Tag) :=
  match _h : ifRemaining (readBits 3) r with
  | .error e _ => .error e r
  | .ok number rest =>
    if number = 0 then .ok [] (r.skipMarker 3)
    else match read rest with
      | .ok tags rest => .ok ((Tag.ofListCode? number).toList ++ tags) rest
      | .error e rest => .error e rest
termination_by r.unread.length
decreasing_by exact ((readBits_advances 3).ifRemaining.ok _h).length_lt (by decide)

theorem read_advances : Scan.Advances 3 read := by
  have hadvances := (readBits_advances 3).ifRemaining
  have both : ∀ r, (∀ tags rest, read r = .ok tags rest → r.Ahead 3 rest) ∧
      (∀ e rest, read r = .error e rest → r.Ahead 0 rest) := by
    intro r
    fun_induction read r with
    | case1 r e rest h =>
      refine ⟨fun _ _ hs => (nomatch hs), fun _ _ hs => ?_⟩
      cases hs
      exact .refl r
    | case2 r rest h =>
      refine ⟨fun _ _ hs => ?_, fun _ _ hs => (nomatch hs)⟩
      rw [skipMarker_of_readBits (eq_ok_of_ifRemaining h)] at hs
      cases hs
      exact hadvances.ok h
    | case3 r number rest h hne tags rest' hrec ih =>
      refine ⟨fun _ _ hs => ?_, fun _ _ hs => (nomatch hs)⟩
      cases hs
      exact ((hadvances.ok h).trans (ih.1 _ _ hrec)).mono (by decide)
    | case4 r number rest h hne e rest' hrec ih =>
      refine ⟨fun _ _ hs => (nomatch hs), fun _ _ hs => ?_⟩
      cases hs
      exact ((hadvances.ok h).trans (ih.2 _ _ hrec)).mono (Nat.zero_le _)
  exact ⟨fun {r a r'} h => (both r).1 a r' h, fun {r e r'} h => (both r).2 e r' h⟩

end DrillCode.TagList
