import StackCode.Class.Type
import StackCode.Proofs.Descriptor.Grammar
import StackCode.Proofs.Sequence

/-!
# Names at source level

A type is named by a base and a pair of brackets for each array level. A name that is accepted is the
name of the type it is accepted as, and a type with a name of this form is the one its name stands
for. Source names allow two characters that descriptors do not, so not every type that has a name
can be read back from its text.
-/

namespace StackCode

def brackets : Nat → String
  | 0 => ""
  | levels + 1 => brackets levels ++ "[]"

/-- A base and its array levels make a name. Classes go by their base, and `void` has no arrays. -/
structure Spells (base : String) (levels : Nat) (name : String) : Prop where
  name_eq : name = base ++ brackets levels
  base_ne : base ≠ ""
  base_chars : ∀ c ∈ base.toList, c ∉ ['[', ']', ';', '/', '(', ')']
  levels_le : levels ≤ 255
  levels_void : base = "void" → levels = 0

/-! ## Bases and brackets -/

theorem reverse_brackets_succ (levels : Nat) :
    (brackets (levels + 1)).toList.reverse = ']' :: '[' :: (brackets levels).toList.reverse := by
  simp [brackets]

theorem mem_brackets {c : Char} {levels : Nat} (h : c ∈ (brackets levels).toList) :
    c = '[' ∨ c = ']' := by
  induction levels with
  | zero => simp [brackets] at h
  | succ levels ih =>
    simp only [brackets, String.toList_append, List.mem_append] at h
    rcases h with h | h
    · exact ih h
    · simpa using h

theorem stripBrackets_eq {cs base : List Char} {levels : Nat}
    (h : stripBrackets cs = (levels, base)) : cs = (brackets levels).toList.reverse ++ base := by
  fun_induction stripBrackets cs generalizing levels base with
  | case1 rest n b hrest ih =>
    cases h
    rw [reverse_brackets_succ, ih hrest]
    rfl
  | case2 cs =>
    cases h
    simp [brackets]

theorem stripBrackets_append {base : List Char} (h : ']' ∉ base) (levels : Nat) :
    stripBrackets ((brackets levels).toList.reverse ++ base) = (levels, base) := by
  induction levels with
  | zero =>
    rw [brackets, String.toList_empty, List.reverse_nil, List.nil_append]
    unfold stripBrackets
    split
    · simp at h
    · rfl
  | succ levels ih =>
    rw [reverse_brackets_succ, List.cons_append, List.cons_append, stripBrackets, ih]

theorem isSourceName_iff {base : String} :
    isSourceName base.toList ↔
      base ≠ "" ∧ ∀ c ∈ base.toList, c ∉ ['[', ']', ';', '/', '(', ')'] := by
  simp [isSourceName, barredAtSource]

namespace Descriptor

theorem replaceChar_replaceChar {a b : Char} {name : String} (h : b ∉ name.toList) :
    replaceChar b a (replaceChar a b name) = name := by
  rw [← String.toList_inj]
  simp only [replaceChar, String.toList_ofList, List.map_map]
  refine (List.map_congr_left fun c hc => ?_).trans (List.map_id _)
  have hne : c ≠ b := fun he => h (he ▸ hc)
  by_cases hca : c = a
  · simp [hca]
  · simp [hca, hne]

theorem mem_replaceChar {a b c : Char} {name : String} :
    c ∈ (replaceChar a b name).toList ↔
      (c = b ∧ a ∈ name.toList) ∨ (c ≠ a ∧ c ∈ name.toList) := by
  simp only [replaceChar, String.toList_ofList, List.mem_map]
  grind

/-! ## Array levels -/

@[simp] theorem nest_dimensions (levels : Nat) (d : Descriptor) :
    (nest levels d).dimensions = d.dimensions + levels := by
  induction levels with
  | zero => rfl
  | succ levels ih => rw [nest, dimensions, ih, Nat.add_assoc]

theorem nest_className (levels : Nat) (d : Descriptor) :
    (nest levels d).className = d.className ++ brackets levels := by
  induction levels with
  | zero => simp [nest, brackets]
  | succ levels ih => rw [nest, className, ih, brackets, String.append_assoc]

theorem nest_isValueType {levels : Nat} {d : Descriptor} :
    (nest levels d).isValueType ↔ levels ≠ 0 ∨ d.isValueType := by
  cases levels <;> simp [nest, isValueType]

theorem nest_isWellFormed {levels : Nat} {d : Descriptor} :
    (nest levels d).isWellFormed ↔ d.isWellFormed ∧ (levels = 0 ∨ d.isValueType) := by
  induction levels with
  | zero => simp [nest]
  | succ levels ih =>
    rw [nest, isWellFormed, Bool.and_eq_true, nest_isValueType, ih]
    grind

theorem arrayOf_of_isValueType {d : Descriptor} (h : d.isValueType) :
    d.arrayOf = if 255 ≤ d.dimensions then .error (.malformed ("[" ++ d.text) .tooManyDimensions)
      else .ok (.array d) := by
  cases d with
  | void | method => cases h
  | primitive | object | array => rfl

theorem arrayOf_eq_ok {d d' : Descriptor} :
    d.arrayOf = .ok d' ↔ d' = .array d ∧ d.isValueType ∧ d.dimensions < 255 := by
  by_cases hv : d.isValueType
  · rw [arrayOf_of_isValueType hv]
    by_cases hdim : d.dimensions < 255
    · rw [if_neg (by omega)]
      simpa [hv, hdim] using eq_comm
    · rw [if_pos (by omega)]
      simp [hdim]
  · cases d with
    | void | method => simp [arrayOf, isValueType]
    | primitive | object | array => exact absurd rfl hv

theorem arrayLevels_eq_ok {d d' : Descriptor} (hd : d.dimensions = 0) {levels : Nat} :
    d.arrayLevels levels = .ok d' ↔
      d' = nest levels d ∧ levels ≤ 255 ∧ (levels = 0 ∨ d.isValueType) := by
  induction levels generalizing d' with
  | zero => simpa [arrayLevels, nest] using eq_comm
  | succ levels ih =>
    rw [arrayLevels, bind_eq_ok]
    constructor
    · rintro ⟨d₁, h₁, h⟩
      obtain ⟨rfl, -, hvalue⟩ := ih.mp h₁
      obtain ⟨rfl, hlast, hdim⟩ := arrayOf_eq_ok.mp h
      rw [nest_dimensions, hd] at hdim
      have := nest_isValueType.mp hlast
      exact ⟨rfl, by omega, .inr (by tauto)⟩
    · rintro ⟨rfl, hle, hvalue⟩
      have hvalue : d.isValueType := by simpa using hvalue
      refine ⟨nest levels d, ih.mpr ⟨rfl, by omega, .inr hvalue⟩, ?_⟩
      exact arrayOf_eq_ok.mpr ⟨rfl, nest_isValueType.mpr (.inr hvalue), by
        rw [nest_dimensions, hd]
        omega⟩

/-! ## Bases -/

theorem ofBaseName_cases (base : String) :
    (∃ kind : Primitive, base = kind.name ∧ ofBaseName base = .primitive kind) ∨
      (base = "void" ∧ ofBaseName base = .void) ∨
      ((∀ kind : Primitive, base ≠ kind.name) ∧ base ≠ "void" ∧
        ofBaseName base = .object (replaceChar '.' '/' base)) := by
  unfold ofBaseName
  cases hk : Primitive.ofName? base with
  | some kind => exact .inl ⟨kind, (Primitive.name_of_ofName? hk).symm, rfl⟩
  | none =>
    by_cases hv : base = "void"
    · exact .inr (.inl ⟨hv, if_pos hv⟩)
    · refine .inr (.inr ⟨fun kind he => ?_, hv, if_neg hv⟩)
      rw [he, Primitive.ofName?_name] at hk
      cases hk

theorem name_ne_void (kind : Primitive) : kind.name ≠ "void" := by
  cases kind <;> decide

theorem ofBaseName_dimensions (base : String) : (ofBaseName base).dimensions = 0 := by
  rcases ofBaseName_cases base with ⟨_, -, h⟩ | ⟨-, h⟩ | ⟨-, -, h⟩ <;> rw [h] <;> rfl

theorem ofBaseName_isWellFormed (base : String) : (ofBaseName base).isWellFormed := by
  rcases ofBaseName_cases base with ⟨_, -, h⟩ | ⟨-, h⟩ | ⟨-, -, h⟩ <;> rw [h] <;> rfl

theorem ofBaseName_isValueType {base : String} : (ofBaseName base).isValueType ↔ base ≠ "void" := by
  rcases ofBaseName_cases base with ⟨kind, rfl, h⟩ | ⟨rfl, h⟩ | ⟨-, hv, h⟩
  · simp [h, isValueType, name_ne_void]
  · simp [h, isValueType]
  · simp [h, isValueType, hv]

theorem ofBaseName_className {base : String} (h : '/' ∉ base.toList) :
    (ofBaseName base).className = base := by
  rcases ofBaseName_cases base with ⟨kind, rfl, hk⟩ | ⟨rfl, hk⟩ | ⟨-, -, hk⟩ <;> rw [hk]
  · rfl
  · rfl
  · exact replaceChar_replaceChar h

/-! ## Names and types -/

theorem ofClassName_eq_ok {name : String} {d : Descriptor} :
    ofClassName name = .ok d ↔
      ∃ base levels, Spells base levels name ∧ d = nest levels (ofBaseName base) := by
  constructor
  · intro h
    unfold ofClassName at h
    cases hs : stripBrackets name.toList.reverse with
    | mk levels reversed =>
      simp only [hs] at h
      split at h
      · rename_i hsource
        split at h
        · rename_i d₁ hd
          cases h
          obtain ⟨rfl, hle, hvalue⟩ := (arrayLevels_eq_ok (ofBaseName_dimensions _)).mp hd
          rw [← String.toList_ofList (l := reversed.reverse), isSourceName_iff] at hsource
          refine ⟨_, levels, ⟨?_, hsource.1, hsource.2, hle, fun hv => ?_⟩, rfl⟩
          · have hname := congrArg List.reverse (stripBrackets_eq hs)
            rw [List.reverse_reverse, List.reverse_append, List.reverse_reverse] at hname
            rw [← String.toList_inj, hname, String.toList_append, String.toList_ofList]
          · rw [ofBaseName_isValueType] at hvalue
            tauto
        · cases h
      · cases h
  · rintro ⟨base, levels, ⟨rfl, hne, hchars, hle, hvoid⟩, rfl⟩
    have hclose : ']' ∉ base.toList.reverse := fun hm =>
      hchars ']' (List.mem_reverse.mp hm) (by decide)
    have hlevels : (ofBaseName base).arrayLevels levels = .ok (nest levels (ofBaseName base)) := by
      refine (arrayLevels_eq_ok (ofBaseName_dimensions base)).mpr ⟨rfl, hle, ?_⟩
      rw [ofBaseName_isValueType]
      tauto
    have hsource : isSourceName base.toList := isSourceName_iff.mpr ⟨hne, hchars⟩
    simp only [ofClassName, String.toList_append, List.reverse_append,
      stripBrackets_append hclose, List.reverse_reverse, hsource, if_true, String.ofList_toList,
      hlevels]

theorem className_of_ofClassName {name : String} {d : Descriptor} (h : ofClassName name = .ok d) :
    d.className = name := by
  obtain ⟨base, levels, hs, rfl⟩ := ofClassName_eq_ok.mp h
  have hslash : '/' ∉ base.toList := fun hm => hs.base_chars '/' hm (by decide)
  rw [nest_className, ofBaseName_className hslash, hs.name_eq]

def innermost : Descriptor → Descriptor
  | array element => element.innermost
  | d => d

theorem nest_innermost (d : Descriptor) : nest d.dimensions d.innermost = d := by
  fun_induction innermost d with
  | case1 element ih => rw [dimensions, nest, ih]
  | case2 d hne =>
    cases d with
    | array element => exact absurd rfl (hne element)
    | primitive | void | object | method => rfl

/-- An internal name that some source name stands for, by itself or as the base of an array. -/
structure IsClassName (name : String) : Prop where
  ne_empty : name ≠ ""
  chars : ∀ c ∈ name.toList, c ∉ ['.', '[', ']', ';', '(', ')']
  ne_void : name ≠ "void"
  ne_primitive : ∀ kind : Primitive, name ≠ kind.name

theorem innermost_ne_array (d element : Descriptor) : d.innermost ≠ .array element := by
  fun_induction innermost d with
  | case1 _ ih => exact ih
  | case2 d hne => exact hne element

theorem innermost_isValueType {d : Descriptor} (hw : d.isWellFormed) (hv : d.isValueType) :
    d.innermost.isValueType := by
  rw [← nest_innermost d, nest_isValueType] at hv
  rw [← nest_innermost d, nest_isWellFormed] at hw
  tauto

structure IsNamed (d : Descriptor) : Prop where
  ofBaseName : ofBaseName d.className = d
  ne_empty : d.className ≠ ""
  chars : ∀ c ∈ d.className.toList, c ∉ ['[', ']', ';', '/', '(', ')']

theorem isNamed_primitive (kind : Primitive) : (primitive kind).IsNamed := by
  have hname : isSourceName (primitive kind).className.toList := by cases kind <;> rfl
  obtain ⟨hne, hchars⟩ := isSourceName_iff.mp hname
  exact ⟨by cases kind <;> rfl, hne, hchars⟩

theorem isNamed_void : void.IsNamed := by
  have hname : isSourceName void.className.toList := rfl
  obtain ⟨hne, hchars⟩ := isSourceName_iff.mp hname
  exact ⟨rfl, hne, hchars⟩

theorem isNamed_object {name : String} (h : IsClassName name) : (object name).IsNamed := by
  have hdot : '.' ∉ name.toList := fun hm => h.chars '.' hm (by decide)
  have hback : replaceChar '.' '/' (replaceChar '/' '.' name) = name := replaceChar_replaceChar hdot
  -- a primitive's name and `void` have no dots, so only the same internal name could become one
  have hkind (kind : Primitive) : replaceChar '/' '.' name ≠ kind.name := by
    intro he
    refine h.ne_primitive kind ?_
    rw [← hback, he]
    cases kind <;> decide
  have hvoid : replaceChar '/' '.' name ≠ "void" := by
    intro he
    refine h.ne_void ?_
    rw [← hback, he]
    decide
  refine ⟨?_, fun he => ?_, fun c hc => ?_⟩
  · rcases ofBaseName_cases (replaceChar '/' '.' name) with ⟨kind, hk, -⟩ | ⟨hv, -⟩ | ⟨-, -, ho⟩
    · exact absurd hk (hkind kind)
    · exact absurd hv hvoid
    · rw [className, ho, hback]
  · refine h.ne_empty ?_
    rw [className] at he
    rw [← hback, he]
    decide
  · rw [className] at hc
    rcases mem_replaceChar.mp hc with ⟨rfl, -⟩ | ⟨hne, hc⟩
    · decide
    · have := h.chars c hc
      simp_all

theorem spells_className {d : Descriptor} (hn : d.innermost.IsNamed) (hd : d.dimensions ≤ 255)
    (hv : d = .void ∨ d.innermost.isValueType) :
    Spells d.innermost.className d.dimensions d.className := by
  refine ⟨?_, hn.ne_empty, hn.chars, hd, fun hvoid => ?_⟩
  · rw [← nest_className, nest_innermost]
  · rcases hv with rfl | hv
    · rfl
    · rw [← hn.ofBaseName, ofBaseName_isValueType] at hv
      exact absurd hvoid hv

/-- **Names at source level and the types they name are inverse to each other.** A name is accepted
exactly when it is a base with at most 255 array levels, and `void` has none; the type is well formed,
has these levels and has this name. In the other direction, every well-formed `void` or value type of
at most 255 levels, whose class has an internal name that a source name can stand for, is what its
name stands for. -/
theorem ofClassName_exact (name : String) (d : Descriptor) :
    ((∃ type, ofClassName name = .ok type) ↔ ∃ base levels, Spells base levels name) ∧
    (ofClassName name = .ok d → d.isWellFormed ∧ d.className = name ∧
      ∀ base levels, Spells base levels name → d.dimensions = levels) ∧
    (d.isWellFormed → d = .void ∨ (d.isValueType ∧ d.dimensions ≤ 255) →
      (∀ internalName, d.innermost = .object internalName → IsClassName internalName) →
      ofClassName d.className = .ok d) := by
  refine ⟨?_, fun h => ⟨?_, className_of_ofClassName h, fun base levels hs => ?_⟩,
    fun hw hvalue hclass => ?_⟩
  · constructor
    · rintro ⟨type, h⟩
      obtain ⟨base, levels, hs, -⟩ := ofClassName_eq_ok.mp h
      exact ⟨base, levels, hs⟩
    · rintro ⟨base, levels, hs⟩
      exact ⟨_, ofClassName_eq_ok.mpr ⟨base, levels, hs, rfl⟩⟩
  · obtain ⟨base, levels, hs, rfl⟩ := ofClassName_eq_ok.mp h
    refine nest_isWellFormed.mpr ⟨ofBaseName_isWellFormed base, ?_⟩
    rw [ofBaseName_isValueType]
    have := hs.levels_void
    tauto
  · have hd := ofClassName_eq_ok.mpr ⟨base, levels, hs, rfl⟩
    rw [Except.ok.inj (h.symm.trans hd), nest_dimensions, ofBaseName_dimensions, Nat.zero_add]
  · have hinner : d = .void ∨ d.innermost.isValueType :=
      hvalue.imp_right fun hv => innermost_isValueType hw hv.1
    have hd : d.dimensions ≤ 255 := by
      rcases hvalue with rfl | hv
      · exact Nat.zero_le _
      · exact hv.2
    have hnamed : d.innermost.IsNamed := by
      cases hi : d.innermost with
      | primitive kind => exact isNamed_primitive kind
      | void => exact isNamed_void
      | object internalName => exact isNamed_object (hclass internalName hi)
      | array element => exact absurd hi (innermost_ne_array d element)
      | method params returns =>
        rcases hinner with rfl | hv
        · cases hi
        · rw [hi] at hv
          cases hv
    refine ofClassName_eq_ok.mpr ⟨_, _, spells_className hnamed hd hinner, ?_⟩
    rw [hnamed.ofBaseName, nest_innermost]

theorem ofClassName_exact_nested :
    (∃ base levels, Spells base levels "a.b[][]") ∧ IsClassName "a/b" ∧
      ofClassName "a.b[][]" = .ok (.array (.array (.object "a/b"))) ∧
      (Descriptor.array (.array (.object "a/b"))).className = "a.b[][]" := by
  have hclass : IsClassName "a/b" :=
    ⟨by decide, by simp, by decide, fun kind => by cases kind <;> decide⟩
  have hname : (Descriptor.array (.array (.object "a/b"))).className = "a.b[][]" := by cbv
  have hd := (ofClassName_exact "a.b[][]" (.array (.array (.object "a/b")))).2.2 rfl
    (.inr ⟨rfl, by decide⟩) fun internalName h => by cases h; exact hclass
  rw [hname] at hd
  exact ⟨(ofClassName_exact _ void).1.mp ⟨_, hd⟩, hclass, hd,
    ((ofClassName_exact _ _).2.1 hd).2.1⟩

end Descriptor

theorem ClassType.className_of_ofName {name : String} {type : ClassType}
    (h : ofName name = .ok type) : type.className = name := by
  unfold ofName at h
  split at h
  · cases h
  · rename_i internalName hname
    cases h
    exact Descriptor.className_of_ofClassName hname
  · cases h

end StackCode
