import StackCode.Descriptor.Error

/-!
# Reading descriptors

Readers take the characters from where they stand and return what they read with the characters left.
A failing reader says why, and what was left when it stopped, which gives the offset of the error.
-/

namespace StackCode

/-- A failed reading: the fault and the characters left. -/
structure Stopped where
  fault : ReadFault
  rest : List Char

abbrev Reading (α : Type) := Except Stopped (α × List Char)

/-- The characters that no class name in a descriptor has, the semicolon that ends it apart. -/
def barredInternally : List Char := ['.', '[', '(', ')', '<', '>']

def isInternalName (name : List Char) : Bool :=
  !name.isEmpty && name.all fun c => !barredInternally.contains c

def readName (cs : List Char) : Reading Descriptor :=
  let name := cs.takeWhile (· ≠ ';')
  match cs.dropWhile (· ≠ ';') with
  | [] => .error ⟨.unterminatedName, cs⟩
  | _ :: rest =>
    if isInternalName name then .ok (.object (String.ofList name), rest)
    else .error ⟨.invalidName, cs⟩

def readBase : List Char → Reading Descriptor
  | [] => .error ⟨.unexpectedEnd, []⟩
  | 'L' :: cs => readName cs
  | c :: cs =>
    match Primitive.ofCode? c with
    | some kind => .ok (.primitive kind, cs)
    | none => .error ⟨.unexpectedCharacter, cs⟩

def readField (cs : List Char) : Reading Descriptor :=
  let levels := (cs.takeWhile (· = '[')).length
  let base := cs.dropWhile (· = '[')
  if Descriptor.maxDimensions < levels then .error ⟨.tooManyDimensions, base⟩
  else
    match readBase base with
    | .ok (d, rest) => .ok (.nest levels d, rest)
    | .error e => .error e

theorem readName_length {cs rest : List Char} {d : Descriptor} (h : readName cs = .ok (d, rest)) :
    rest.length < cs.length := by
  have hl := (List.dropWhile_suffix (l := cs) (· ≠ ';')).length_le
  simp only [readName] at h
  split at h
  · cases h
  · rename_i heq
    rw [heq] at hl
    split at h
    · cases h
      simp only [List.length_cons] at hl
      omega
    · cases h

theorem readBase_length {cs rest : List Char} {d : Descriptor} (h : readBase cs = .ok (d, rest)) :
    rest.length < cs.length := by
  unfold readBase at h
  split at h
  · cases h
  · have := readName_length h
    simp only [List.length_cons]
    omega
  · split at h
    · cases h
      simp
    · cases h

theorem readField_length {cs rest : List Char} {d : Descriptor} (h : readField cs = .ok (d, rest)) :
    rest.length < cs.length := by
  have hl := (List.dropWhile_suffix (l := cs) (· = '[')).length_le
  simp only [readField] at h
  split at h
  · cases h
  · split at h
    · rename_i heq
      cases h
      have := readBase_length heq
      omega
    · cases h

theorem readBase_isValueType {cs rest : List Char} {d : Descriptor}
    (h : readBase cs = .ok (d, rest)) : d.isValueType = true := by
  unfold readBase at h
  split at h
  · cases h
  · simp only [readName] at h
    split at h
    · cases h
    · split at h
      · cases h
        rfl
      · cases h
  · split at h
    · cases h
      rfl
    · cases h

theorem readField_isValueType {cs rest : List Char} {d : Descriptor}
    (h : readField cs = .ok (d, rest)) : d.isValueType = true := by
  simp only [readField] at h
  split at h
  · cases h
  · split at h
    · rename_i hbase
      cases h
      cases (cs.takeWhile (· = '[')).length with
      | zero => exact readBase_isValueType hbase
      | succ n => rfl
    · cases h

def readParams (cs : List Char) : Reading (List Descriptor) :=
  match cs with
  | [] => .error ⟨.unterminatedParameters, []⟩
  | ')' :: rest => .ok ([], rest)
  | cs =>
    match h : readField cs with
    | .error e => .error e
    | .ok (d, rest) =>
      have := readField_length h
      match readParams rest with
      | .error e => .error e
      | .ok (ds, rest) => .ok (d :: ds, rest)
termination_by cs.length

def readResult : List Char → Reading Descriptor
  | 'V' :: rest => .ok (.void, rest)
  | cs => readField cs

theorem readParams_isValueType {cs rest : List Char} {ds : List Descriptor}
    (h : readParams cs = .ok (ds, rest)) : ∀ d ∈ ds, d.isValueType = true := by
  fun_induction readParams cs generalizing ds with
  | case1 | case3 | case4 => cases h
  | case2 =>
    cases h
    exact nofun
  | case5 cs _ _ d tail hd _ ds' rest' hds ih =>
    cases h
    exact List.forall_mem_cons.mpr ⟨readField_isValueType hd, ih hds⟩

theorem readResult_isResult {cs rest : List Char} {d : Descriptor}
    (h : readResult cs = .ok (d, rest)) : d = .void ∨ d.isValueType = true := by
  unfold readResult at h
  split at h
  · cases h
    exact .inl rfl
  · exact .inr (readField_isValueType h)

def readSignature : List Char → Reading ProperSignature
  | '(' :: cs =>
    match hp : readParams cs with
    | .error e => .error e
    | .ok (params, rest) =>
      match hr : readResult rest with
      | .error e => .error e
      | .ok (returns, rest) =>
        .ok (⟨⟨params, returns⟩, readParams_isValueType hp, readResult_isResult hr⟩, rest)
  | cs => .error ⟨.expectedParameters, cs.tail⟩

def utf8Length : List Char → Nat
  | [] => 0
  | c :: cs => c.utf8Size + utf8Length cs

/-- Runs a reader over a whole text, to its end. -/
def readAll (reader : List Char → Reading α) (text : String) : Except DescriptorError α :=
  let cs := text.toList
  let fail (stopped : Stopped) := Except.error <| DescriptorError.malformed text <|
    .unreadable stopped.fault (utf8Length cs - utf8Length stopped.rest)
  match reader cs with
  | .ok (a, []) => .ok a
  | .ok (_, rest) => fail ⟨.trailingCharacters, rest⟩
  | .error stopped => fail stopped

def readDescriptor : List Char → Reading Descriptor
  | cs@('(' :: _) =>
    match readSignature cs with
    | .error e => .error e
    | .ok (s, rest) => .ok (s.toDescriptor, rest)
  | cs => readResult cs

def Descriptor.parse (text : String) : Except DescriptorError Descriptor :=
  readAll readDescriptor text

def Signature.parse (text : String) : Except DescriptorError ProperSignature :=
  readAll readSignature text

end StackCode
