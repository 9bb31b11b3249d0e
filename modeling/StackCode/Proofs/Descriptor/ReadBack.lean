import Mathlib
import StackCode.Proofs.Descriptor.ClassName

/-!
# Reading back the text of a named type

Names at source level may have angle brackets, which no class name in a descriptor has. The text of a
type that a name stands for is read back as this type exactly if the name has none of them; otherwise
reading stops where the class name begins.
-/

namespace StackCode

/-! ## Class names that descriptors refuse -/

theorem readDescriptor_eq_readField {c : Char} {cs : List Char} (hc : c ∉ ['V', '(']) :
    readDescriptor (c :: cs) = readField (c :: cs) := by
  have hopen : c ≠ '(' := fun h => hc (by simp [h])
  have hvoid : c ≠ 'V' := fun h => hc (by simp [h])
  unfold readDescriptor
  split
  · simp_all
  · unfold readResult
    split
    · simp_all
    · rfl

theorem readName_invalidName {name : String} {rest : List Char} (hsemi : ';' ∉ name.toList)
    (hn : ¬Descriptor.IsName name) :
    readName (name.toList ++ ';' :: rest) = .error ⟨.invalidName, name.toList ++ ';' :: rest⟩ := by
  obtain ⟨htake, hdrop⟩ := span_append (p := (· ≠ ';')) (l := name.toList) (r := ';' :: rest)
    (fun c hc => by simpa using ne_of_mem_of_not_mem hc hsemi) (by simp)
  have hbarred : ¬isInternalName name.toList := by
    rw [isInternalName_iff hsemi, String.ofList_toList]
    exact hn
  simp only [readName, htake, hdrop, if_neg hbarred]

theorem utf8Length_brackets (levels : Nat) : utf8Length (List.replicate levels '[') = levels := by
  have hbracket : Char.utf8Size '[' = 1 := rfl
  induction levels with
  | zero => rfl
  | succ levels ih => rw [List.replicate_succ, utf8Length, ih, hbracket, Nat.add_comm]

namespace Descriptor

theorem parse_invalidName {levels : Nat} {name : String} (hl : levels ≤ 255)
    (hsemi : ';' ∉ name.toList) (hn : ¬IsName name) :
    parse (nest levels (object name)).text =
      .error (.malformed (nest levels (object name)).text
        (.unreadable .invalidName (levels + 1))) := by
  have hchars : (nest levels (object name)).chars =
      List.replicate levels '[' ++ 'L' :: (name.toList ++ [';']) := nest_chars levels (object name)
  have hfield : readField (nest levels (object name)).chars =
      .error ⟨.invalidName, name.toList ++ [';']⟩ := by
    rw [hchars, readField_brackets hl (by simp), readBase, readName_invalidName hsemi hn]
    rfl
  have hread : readDescriptor (nest levels (object name)).chars =
      .error ⟨.invalidName, name.toList ++ [';']⟩ := by
    rw [← hfield]
    cases levels with
    | zero => exact readDescriptor_eq_readField (by decide)
    | succ levels => exact readDescriptor_eq_readField (by decide)
  -- the brackets and the letter of a class are all that was taken, a byte each
  have hoffset : utf8Length (nest levels (object name)).chars - utf8Length (name.toList ++ [';']) =
      levels + 1 := by
    have hletter : Char.utf8Size 'L' = 1 := rfl
    rw [hchars, utf8Length_append, utf8Length_brackets, utf8Length, hletter]
    omega
  rw [parse, readAll, text, String.toList_ofList, hread]
  simp only [hoffset]

/-- Dots become slashes, which both sides allow, so only angle brackets make a difference. -/
theorem isName_replaceChar {base : String} (hne : base ≠ "")
    (hchars : ∀ c ∈ base.toList, c ∉ ['[', ']', ';', '/', '(', ')']) :
    IsName (replaceChar '.' '/' base) ↔ '<' ∉ base.toList ∧ '>' ∉ base.toList := by
  have hslash : '/' ∉ base.toList := fun hm => hchars '/' hm (by decide)
  constructor
  · intro h
    constructor
    · exact fun hm => h.2 '<' (mem_replaceChar.mpr (.inr ⟨by decide, hm⟩)) (by decide)
    · exact fun hm => h.2 '>' (mem_replaceChar.mpr (.inr ⟨by decide, hm⟩)) (by decide)
  · rintro ⟨hlt, hgt⟩
    refine ⟨fun he => hne ?_, fun c hc => ?_⟩
    · rw [← replaceChar_replaceChar hslash, he]
      decide
    · rcases mem_replaceChar.mp hc with ⟨rfl, -⟩ | ⟨hdot, hc⟩
      · decide
      · have := hchars c hc
        have := ne_of_mem_of_not_mem hc hlt
        have := ne_of_mem_of_not_mem hc hgt
        simp_all

theorem canonical_of_isName {base : String} {levels : Nat} (hle : levels ≤ 255)
    (hvoid : base = "void" → levels = 0) (hname : IsName (replaceChar '.' '/' base)) :
    (nest levels (ofBaseName base)).Canonical := by
  rcases ofBaseName_cases base with ⟨kind, -, h⟩ | ⟨hv, h⟩ | ⟨-, -, h⟩ <;> rw [h]
  · exact .field ⟨levels, hle, _, .primitive kind, rfl⟩
  · rw [hvoid hv]
    exact .void
  · exact .field ⟨levels, hle, _, .object hname, rfl⟩

theorem ofBaseName_of_not_isName {base : String} (h : ¬IsName (replaceChar '.' '/' base)) :
    ofBaseName base = .object (replaceChar '.' '/' base) := by
  rcases ofBaseName_cases base with ⟨kind, rfl, -⟩ | ⟨rfl, -⟩ | ⟨-, -, ho⟩
  · have hnamed := isNamed_primitive kind
    exact absurd ((isName_replaceChar hnamed.ne_empty hnamed.chars).mpr (by cases kind <;> decide)) h
  · have hnamed := isNamed_void
    exact absurd ((isName_replaceChar hnamed.ne_empty hnamed.chars).mpr (by decide)) h
  · exact ho

theorem mem_of_spells {base name : String} {levels : Nat} (h : Spells base levels name) {c : Char}
    (hc : c ∉ ['[', ']']) : c ∈ name.toList ↔ c ∈ base.toList := by
  rw [h.name_eq, String.toList_append, List.mem_append]
  refine ⟨fun hm => hm.resolve_right fun hb => ?_, .inl⟩
  rcases mem_brackets hb with rfl | rfl <;> simp at hc

end Descriptor

theorem ClassType.ofClassName_descriptor {name : String} {type : ClassType}
    (h : ofName name = .ok type) : Descriptor.ofClassName name = .ok type.descriptor := by
  unfold ofName at h
  split at h
  · cases h
  · rename_i internalName hname
    cases h
    exact hname
  · cases h

namespace Descriptor

/-- **The text of a named type is read back exactly if the name has no angle brackets.** With one of
them it is refused where the class name begins, whether the name was taken for a type of any sort or
for a class. -/
theorem parse_text_of_named {name : String} {d : Descriptor}
    (h : ofClassName name = .ok d ∨ ∃ type, ClassType.ofName name = .ok type ∧ type.descriptor = d) :
    parse d.text =
      if '<' ∈ name.toList ∨ '>' ∈ name.toList then
        .error (.malformed d.text (.unreadable .invalidName (d.dimensions + 1)))
      else .ok d := by
  have hd : ofClassName name = .ok d := by
    rcases h with h | ⟨type, h, rfl⟩
    · exact h
    · exact ClassType.ofClassName_descriptor h
  obtain ⟨base, levels, hs, rfl⟩ := ofClassName_eq_ok.mp hd
  have hname : IsName (replaceChar '.' '/' base) ↔ ¬('<' ∈ name.toList ∨ '>' ∈ name.toList) := by
    rw [mem_of_spells hs (by decide), mem_of_spells hs (by decide), not_or]
    exact isName_replaceChar hs.base_ne hs.base_chars
  split
  · rename_i hangle
    have hn : ¬IsName (replaceChar '.' '/' base) := fun hn => hname.mp hn hangle
    have hsemi : ';' ∉ (replaceChar '.' '/' base).toList := by
      intro hm
      rcases mem_replaceChar.mp hm with ⟨he, -⟩ | ⟨-, hm⟩
      · cases he
      · exact hs.base_chars ';' hm (by decide)
    rw [nest_dimensions, ofBaseName_dimensions, Nat.zero_add, ofBaseName_of_not_isName hn]
    exact parse_invalidName hs.levels_le hsemi hn
  · rename_i hangle
    exact (canonical_of_isName hs.levels_le hs.levels_void (hname.mpr hangle)).parse_text

theorem parse_text_of_named_package :
    ofClassName "p.C[]" = .ok (.array (.object "p/C")) ∧
      parse (array (object "p/C")).text = .ok (.array (.object "p/C")) ∧
      ofClassName "p.<C[]" = .ok (.array (.object "p/<C")) ∧
      parse (array (object "p/<C")).text =
        .error (.malformed "[Lp/<C;" (.unreadable .invalidName 2)) := by
  have hplain : ofClassName "p.C[]" = .ok (.array (.object "p/C")) := by cbv
  have hangled : ofClassName "p.<C[]" = .ok (.array (.object "p/<C")) := by cbv
  exact ⟨hplain, (parse_text_of_named (.inl hplain)).trans (if_neg (by decide)), hangled,
    (parse_text_of_named (.inl hangled)).trans (if_pos (by decide))⟩

theorem parse_text_angled :
    ofClassName "a<b" = .ok (.object "a<b") ∧ ClassType.ofName "a<b" = .ok ⟨"a<b"⟩ ∧
      parse (object "a<b").text = .error (.malformed "La<b;" (.unreadable .invalidName 1)) := by
  refine ⟨?_, ?_, ?_⟩ <;> cbv

end Descriptor

end StackCode
