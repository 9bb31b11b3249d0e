import StackCode.Descriptor.Parser
import Mathlib.Data.List.Basic

/-!
# The grammar of descriptors

What a reader accepts is what the printer writes: each reader succeeds on a canonical type's
characters followed by anything, and on nothing else. A reader that stops leaves an end of the text,
so the offset in its error is a character boundary.
-/

namespace StackCode

namespace Descriptor

def IsName (name : String) : Prop :=
  name ≠ "" ∧ ∀ c ∈ name.toList, c ∉ ['.', ';', '[', '(', ')', '<', '>']

inductive IsBase : Descriptor → Prop where
  | primitive (kind : Primitive) : IsBase (.primitive kind)
  | object {name : String} (isName : IsName name) : IsBase (.object name)

/-- A primitive or a class in at most 255 array levels. -/
def IsField (d : Descriptor) : Prop :=
  ∃ levels ≤ 255, ∃ base : Descriptor, base.IsBase ∧ d = nest levels base

def IsResult (d : Descriptor) : Prop := d = .void ∨ d.IsField

/-- The types that texts spell. -/
inductive Canonical : Descriptor → Prop where
  | void : Canonical .void
  | field {d : Descriptor} (isField : d.IsField) : Canonical d
  | method {params : List Descriptor} {returns : Descriptor}
      (params_isField : ∀ p ∈ params, p.IsField) (returns_isResult : returns.IsResult) :
      Canonical (.method params returns)

/-! ## Spellings -/

theorem nest_chars (levels : Nat) (d : Descriptor) :
    (nest levels d).chars = List.replicate levels '[' ++ d.chars := by
  induction levels with
  | zero => rfl
  | succ levels ih => simp [nest, chars, ih, List.replicate_succ]

theorem code_notMem (kind : Primitive) : kind.code ∉ ['L', 'V', '[', '(', ')'] := by
  cases kind <;> decide

theorem IsBase.head {d : Descriptor} (h : d.IsBase) :
    ∃ c cs, d.chars = c :: cs ∧ c ∉ ['V', '[', '(', ')'] := by
  cases h with
  | primitive kind =>
    have := code_notMem kind
    exact ⟨kind.code, [], rfl, by simp_all⟩
  | object => exact ⟨'L', _, rfl, by decide⟩

theorem IsField.head {d : Descriptor} (h : d.IsField) :
    ∃ c cs, d.chars = c :: cs ∧ c ∉ ['V', '(', ')'] := by
  obtain ⟨levels, -, base, hb, rfl⟩ := h
  cases levels with
  | zero =>
    obtain ⟨c, cs, hd, hc⟩ := hb.head
    exact ⟨c, cs, hd, by simp_all⟩
  | succ levels => exact ⟨'[', _, rfl, by decide⟩

theorem IsField.isValueType {d : Descriptor} (h : d.IsField) : d.isValueType := by
  obtain ⟨levels, -, base, hb, rfl⟩ := h
  cases levels with
  | zero => cases hb <;> rfl
  | succ levels => rfl

theorem canonical_method {params : List Descriptor} {returns : Descriptor} :
    (method params returns).Canonical ↔ (∀ p ∈ params, p.IsField) ∧ returns.IsResult := by
  refine ⟨fun h => ?_, fun h => .method h.1 h.2⟩
  cases h with
  | field h => cases h.isValueType
  | method hp hr => exact ⟨hp, hr⟩

end Descriptor

/-! ## What each reader accepts -/

theorem span_append {p : Char → Bool} {l r : List Char} (hl : ∀ c ∈ l, p c)
    (hr : ∀ c ∈ r.head?, !p c) :
    (l ++ r).takeWhile p = l ∧ (l ++ r).dropWhile p = r := by
  have hstop : r.takeWhile p = [] ∧ r.dropWhile p = r := by
    cases r <;> simp_all
  rw [List.takeWhile_append_of_pos hl, List.dropWhile_append_of_pos hl, hstop.1, hstop.2]
  simp

theorem isInternalName_iff {name : List Char} (hsemi : ';' ∉ name) :
    isInternalName name ↔ Descriptor.IsName (String.ofList name) := by
  have hbarred : ∀ c ∈ name, c ∉ barredInternally ↔ c ∉ ['.', ';', '[', '(', ')', '<', '>'] := by
    intro c hc
    have : c ≠ ';' := ne_of_mem_of_not_mem hc hsemi
    simp [barredInternally, this]
  simp only [Descriptor.IsName, String.toList_ofList, ← forall₂_congr hbarred]
  simp [isInternalName]

theorem readName_iff {cs rest : List Char} {d : Descriptor} :
    readName cs = .ok (d, rest) ↔
      ∃ name, Descriptor.IsName name ∧ d = .object name ∧ cs = name.toList ++ ';' :: rest := by
  constructor
  · intro h
    have hsemi : ';' ∉ cs.takeWhile (· ≠ ';') := fun hm => by
      simpa using List.all_eq_true.mp List.all_takeWhile _ hm
    have hsplit := List.takeWhile_append_dropWhile (p := (· ≠ ';')) (l := cs)
    have hstop := List.head?_dropWhile_not (· ≠ ';') cs
    simp only [readName] at h
    split at h
    · cases h
    rename_i c tail hdrop
    split at h
    · rename_i hname
      cases h
      rw [hdrop] at hsplit hstop
      obtain rfl : c = ';' := by simpa using hstop
      exact ⟨_, (isInternalName_iff hsemi).mp hname, rfl, by simpa using hsplit.symm⟩
    · cases h
  · rintro ⟨name, hname, rfl, rfl⟩
    have hsemi : ';' ∉ name.toList := fun hm => hname.2 ';' hm (by decide)
    obtain ⟨htake, hdrop⟩ := span_append (p := (· ≠ ';')) (l := name.toList)
      (r := ';' :: rest) (fun c hc => by simpa using ne_of_mem_of_not_mem hc hsemi) (by simp)
    have hok : isInternalName name.toList := (isInternalName_iff hsemi).mpr (by simpa using hname)
    simp only [readName, htake, hdrop, hok]
    simp

theorem readBase_iff {cs rest : List Char} {d : Descriptor} :
    readBase cs = .ok (d, rest) ↔ d.IsBase ∧ cs = d.chars ++ rest := by
  constructor
  · intro h
    unfold readBase at h
    split at h
    · cases h
    · obtain ⟨name, hname, rfl, rfl⟩ := readName_iff.mp h
      exact ⟨.object hname, by simp [Descriptor.chars]⟩
    · split at h
      · rename_i kind hk
        cases h
        exact ⟨.primitive kind, by simp [Descriptor.chars, Primitive.code_of_ofCode? hk]⟩
      · cases h
  · rintro ⟨hb, rfl⟩
    cases hb with
    | primitive kind =>
      have hL : kind.code ≠ 'L' := fun h => Descriptor.code_notMem kind (by simp [h])
      simp [Descriptor.chars, readBase, Primitive.ofCode?_code]
    | object hname =>
      simpa [Descriptor.chars, readBase] using readName_iff.mpr ⟨_, hname, rfl, rfl⟩

theorem readField_brackets {levels : Nat} {cs : List Char} (hl : levels ≤ 255)
    (hc : ∀ c ∈ cs.head?, c ≠ '[') :
    readField (List.replicate levels '[' ++ cs) =
      (readBase cs).map fun (d, rest) => (.nest levels d, rest) := by
  obtain ⟨htake, hdrop⟩ := span_append (p := (· = '[')) (l := List.replicate levels '[')
    (r := cs) (by simp) (by simpa using hc)
  have hlevels : ¬ Descriptor.maxDimensions < levels := Nat.not_lt.mpr hl
  simp only [readField, htake, hdrop, List.length_replicate, if_neg hlevels]
  cases readBase cs <;> rfl

theorem readField_iff {cs rest : List Char} {d : Descriptor} :
    readField cs = .ok (d, rest) ↔ d.IsField ∧ cs = d.chars ++ rest := by
  constructor
  · intro h
    simp only [readField] at h
    split at h
    · cases h
    rename_i hlevels
    split at h
    · rename_i base rest' hbase
      cases h
      obtain ⟨hb, hdrop⟩ := readBase_iff.mp hbase
      refine ⟨⟨_, Nat.le_of_not_lt hlevels, base, hb, rfl⟩, ?_⟩
      have hbrackets : cs.takeWhile (· = '[') =
          List.replicate (cs.takeWhile (· = '[')).length '[' :=
        List.eq_replicate_iff.mpr ⟨rfl, fun c hc => by
          simpa using List.all_eq_true.mp List.all_takeWhile c hc⟩
      rw [Descriptor.nest_chars, ← hbrackets, List.append_assoc, ← hdrop,
        List.takeWhile_append_dropWhile]
    · cases h
  · rintro ⟨⟨levels, hl, base, hb, rfl⟩, rfl⟩
    obtain ⟨c, tail, hc, hhead⟩ := hb.head
    have hne : c ≠ '[' := fun h => hhead (by simp [h])
    have hread : readBase (base.chars ++ rest) = .ok (base, rest) := readBase_iff.mpr ⟨hb, rfl⟩
    rw [Descriptor.nest_chars, List.append_assoc,
      readField_brackets hl (by simpa [hc] using hne), hread]
    rfl

theorem readParams_of_readField {cs rest rest' : List Char} {d : Descriptor} {ds : List Descriptor}
    (hd : readField cs = .ok (d, rest)) (hds : readParams rest = .ok (ds, rest')) :
    readParams cs = .ok (d :: ds, rest') := by
  obtain ⟨hfield, rfl⟩ := readField_iff.mp hd
  obtain ⟨c, tail, hc, hhead⟩ := hfield.head
  have hclose : c ≠ ')' := fun h => hhead (by simp [h])
  rw [hc, List.cons_append] at hd ⊢
  rw [readParams]
  · split <;> simp_all
  · simp
  · simp [hclose]

theorem readParams_iff {cs rest : List Char} {ds : List Descriptor} :
    readParams cs = .ok (ds, rest) ↔
      (∀ d ∈ ds, d.IsField) ∧ cs = Descriptor.listChars ds ++ ')' :: rest := by
  constructor
  · intro h
    fun_induction readParams cs generalizing ds with
    | case1 => cases h
    | case2 =>
      cases h
      simp [Descriptor.listChars]
    | case3 => cases h
    | case4 => cases h
    | case5 cs _ _ d tail hd _ ds' rest' hds ih =>
      cases h
      obtain ⟨hfield, rfl⟩ := readField_iff.mp hd
      obtain ⟨hfields, rfl⟩ := ih hds
      exact ⟨List.forall_mem_cons.mpr ⟨hfield, hfields⟩, by simp [Descriptor.listChars]⟩
  · rintro ⟨hds, rfl⟩
    induction ds with
    | nil => simp [Descriptor.listChars, readParams]
    | cons d ds ih =>
      obtain ⟨hd, hds⟩ := List.forall_mem_cons.mp hds
      rw [Descriptor.listChars, List.append_assoc]
      exact readParams_of_readField (readField_iff.mpr ⟨hd, rfl⟩) (ih hds)

theorem readResult_iff {cs rest : List Char} {d : Descriptor} :
    readResult cs = .ok (d, rest) ↔ d.IsResult ∧ cs = d.chars ++ rest := by
  constructor
  · intro h
    unfold readResult at h
    split at h
    · cases h
      exact ⟨.inl rfl, rfl⟩
    · obtain ⟨hd, rfl⟩ := readField_iff.mp h
      exact ⟨.inr hd, rfl⟩
  · rintro ⟨rfl | hd, rfl⟩
    · rfl
    · obtain ⟨c, tail, hc, hhead⟩ := hd.head
      have hV : c ≠ 'V' := fun h => hhead (by simp [h])
      rw [← readField_iff.mpr ⟨hd, rfl⟩, hc, List.cons_append, readResult]
      simpa using hV

theorem readSignature_iff {cs rest : List Char} {m : ProperSignature} :
    readSignature cs = .ok (m, rest) ↔
      m.toDescriptor.Canonical ∧ cs = m.toDescriptor.chars ++ rest := by
  constructor
  · intro h
    unfold readSignature at h
    split at h
    · split at h
      · cases h
      rename_i params tail hparams
      split at h
      · cases h
      rename_i returns rest' hreturns
      cases h
      obtain ⟨hp, rfl⟩ := readParams_iff.mp hparams
      obtain ⟨hr, rfl⟩ := readResult_iff.mp hreturns
      exact ⟨.method hp hr, by simp [Signature.toDescriptor, Descriptor.chars]⟩
    · cases h
  · rintro ⟨hm, rfl⟩
    obtain ⟨hp, hr⟩ := Descriptor.canonical_method.mp hm
    -- the parameters are read up to the bracket that closes them, the result from there
    have hreturns : readResult (m.returns.chars ++ rest) = .ok (m.returns, rest) :=
      readResult_iff.mpr ⟨hr, rfl⟩
    have hparams : readParams (Descriptor.listChars m.params ++ ')' :: (m.returns.chars ++ rest)) =
        .ok (m.params, m.returns.chars ++ rest) := readParams_iff.mpr ⟨hp, rfl⟩
    simp only [Signature.toDescriptor, Descriptor.chars, List.cons_append, List.append_assoc,
      readSignature]
    split
    · rename_i h
      cases h.symm.trans hparams
    · rename_i h
      cases h.symm.trans hparams
      split
      · rename_i h
        cases h.symm.trans hreturns
      · rename_i h
        cases h.symm.trans hreturns
        rfl

theorem Signature.exists_proper {s : Signature} (h : s.toDescriptor.Canonical) :
    ∃ m : ProperSignature, m.toSignature = s := by
  obtain ⟨hp, hr⟩ := Descriptor.canonical_method.mp h
  have hresult : s.returns = .void ∨ s.returns.isValueType = true :=
    hr.imp_right Descriptor.IsField.isValueType
  exact ⟨⟨s, fun p hpm => (hp p hpm).isValueType, hresult⟩, rfl⟩

theorem readDescriptor_iff {cs rest : List Char} {d : Descriptor} :
    readDescriptor cs = .ok (d, rest) ↔ d.Canonical ∧ cs = d.chars ++ rest := by
  constructor
  · intro h
    unfold readDescriptor at h
    split at h
    · split at h
      · cases h
      rename_i m rest' hm
      cases h
      exact readSignature_iff.mp hm
    · obtain ⟨rfl | hd, rfl⟩ := readResult_iff.mp h
      · exact ⟨.void, rfl⟩
      · exact ⟨.field hd, rfl⟩
  · rintro ⟨hd, rfl⟩
    cases hd with
    | void => rfl
    | field hd =>
      obtain ⟨c, tail, hc, hhead⟩ := hd.head
      have hopen : c ≠ '(' := fun h => hhead (by simp [h])
      rw [← readResult_iff.mpr ⟨.inr hd, rfl⟩, hc, List.cons_append, readDescriptor]
      simpa using hopen
    | @method params returns hp hr =>
      obtain ⟨⟨_, hparams, hresult⟩, rfl⟩ :=
        Signature.exists_proper (s := ⟨params, returns⟩) (.method hp hr)
      have hm : readSignature _ = .ok (⟨⟨params, returns⟩, hparams, hresult⟩, rest) :=
        readSignature_iff.mpr ⟨.method hp hr, rfl⟩
      simp only [Signature.toDescriptor, Descriptor.chars, List.cons_append] at hm ⊢
      simp only [readDescriptor, hm, Signature.toDescriptor]

/-! ## Where a reader stops -/

/-- A reader leaves an end of what it is given, whether it succeeds or stops. -/
structure LeavesEnd (reader : List Char → Reading α) : Prop where
  read : ∀ {cs rest a}, reader cs = .ok (a, rest) → rest <:+ cs
  stopped : ∀ {cs e}, reader cs = .error e → e.rest <:+ cs

theorem readName_stopped {cs : List Char} {e : Stopped} (h : readName cs = .error e) :
    e.rest <:+ cs := by
  simp only [readName] at h
  split at h
  · cases h
    exact List.suffix_rfl
  · split at h
    · cases h
    · cases h
      exact List.suffix_rfl

theorem readBase_stopped {cs : List Char} {e : Stopped} (h : readBase cs = .error e) :
    e.rest <:+ cs := by
  unfold readBase at h
  split at h
  · cases h
    exact List.suffix_rfl
  · exact (readName_stopped h).trans (List.suffix_cons _ _)
  · split at h
    · cases h
    · cases h
      exact List.suffix_cons _ _

theorem readField_stopped {cs : List Char} {e : Stopped} (h : readField cs = .error e) :
    e.rest <:+ cs := by
  have hbase := List.dropWhile_suffix (l := cs) (· = '[')
  simp only [readField] at h
  split at h
  · cases h
    exact hbase
  · split at h
    · cases h
    · rename_i he
      cases h
      exact (readBase_stopped he).trans hbase

theorem readParams_stopped {cs : List Char} {e : Stopped} (h : readParams cs = .error e) :
    e.rest <:+ cs := by
  fun_induction readParams cs with
  | case1 =>
    cases h
    exact List.suffix_rfl
  | case2 => cases h
  | case3 cs _ _ e' he =>
    cases h
    exact readField_stopped he
  | case4 cs _ _ d rest hd _ e' he ih =>
    cases h
    obtain ⟨-, rfl⟩ := readField_iff.mp hd
    exact (ih he).trans (List.suffix_append _ _)
  | case5 => cases h

theorem readResult_stopped {cs : List Char} {e : Stopped} (h : readResult cs = .error e) :
    e.rest <:+ cs := by
  unfold readResult at h
  split at h
  · cases h
  · exact readField_stopped h

theorem readSignature_leavesEnd : LeavesEnd readSignature where
  read h := ⟨_, (readSignature_iff.mp h).2.symm⟩
  stopped {cs e} h := by
    unfold readSignature at h
    split at h
    · split at h
      · rename_i he
        cases h
        exact (readParams_stopped he).trans (List.suffix_cons _ _)
      rename_i params rest hparams
      split at h
      · rename_i he
        cases h
        obtain ⟨-, rfl⟩ := readParams_iff.mp hparams
        have hrest : rest <:+ Descriptor.listChars params ++ ')' :: rest :=
          (List.suffix_cons _ _).trans (List.suffix_append _ _)
        exact ((readResult_stopped he).trans hrest).trans (List.suffix_cons _ _)
      · cases h
    · cases h
      exact List.tail_suffix _

theorem readDescriptor_leavesEnd : LeavesEnd readDescriptor where
  read h := ⟨_, (readDescriptor_iff.mp h).2.symm⟩
  stopped {cs e} h := by
    unfold readDescriptor at h
    split at h
    · split at h
      · rename_i he
        cases h
        exact readSignature_leavesEnd.stopped he
      · cases h
    · exact readResult_stopped h

/-! ## Whole texts -/

theorem utf8Length_append (xs ys : List Char) :
    utf8Length (xs ++ ys) = utf8Length xs + utf8Length ys := by
  induction xs with
  | nil => simp [utf8Length]
  | cons x xs ih =>
    simp only [List.cons_append, utf8Length, ih]
    omega

theorem utf8ByteSize_ofList (cs : List Char) : (String.ofList cs).utf8ByteSize = utf8Length cs := by
  induction cs with
  | nil => rfl
  | cons c cs ih => rw [String.ofList_cons, String.utf8ByteSize_append, ih, utf8Length,
      String.utf8ByteSize_singleton]

theorem isValid_of_suffix {text : String} {rest : List Char} (h : rest <:+ text.toList) :
    (String.Pos.Raw.mk (utf8Length text.toList - utf8Length rest)).IsValid text := by
  obtain ⟨front, hfront⟩ := h
  rw [String.Pos.Raw.isValid_iff_exists_append]
  refine ⟨String.ofList front, String.ofList rest, ?_, ?_⟩
  · rw [← String.ofList_append, hfront, String.ofList_toList]
  · rw [← hfront, utf8Length_append, Nat.add_sub_cancel, ← utf8ByteSize_ofList]
    rfl

theorem readAll_ok {α : Type} {reader : List Char → Reading α} {text : String} {a : α} :
    readAll reader text = .ok a ↔ reader text.toList = .ok (a, []) := by
  simp only [readAll]
  split <;> simp_all

theorem readAll_error {α : Type} {reader : List Char → Reading α} (hr : LeavesEnd reader)
    {text : String} {e : DescriptorError} (h : readAll reader text = .error e) :
    ∃ fault offset, e = .malformed text (.unreadable fault offset) ∧
      (String.Pos.Raw.mk offset).IsValid text := by
  simp only [readAll] at h
  split at h
  · cases h
  · rename_i rest _ hread
    cases h
    exact ⟨_, _, rfl, isValid_of_suffix (hr.read hread)⟩
  · rename_i hstopped
    cases h
    exact ⟨_, _, rfl, isValid_of_suffix (hr.stopped hstopped)⟩

namespace Descriptor

theorem parse_ok {text : String} {d : Descriptor} :
    parse text = .ok d ↔ d.Canonical ∧ d.text = text := by
  rw [parse, readAll_ok, readDescriptor_iff, Descriptor.text, List.append_nil]
  exact and_congr_right fun _ => ⟨fun h => by rw [← h, String.ofList_toList],
    fun h => by rw [← h, String.toList_ofList]⟩

theorem Canonical.parse_text {d : Descriptor} (h : d.Canonical) : parse d.text = .ok d :=
  parse_ok.mpr ⟨h, rfl⟩

end Descriptor

theorem Signature.parse_ok {text : String} {m : ProperSignature} :
    Signature.parse text = .ok m ↔ Descriptor.parse text = .ok m.toDescriptor := by
  rw [Signature.parse, Descriptor.parse, readAll_ok, readAll_ok, readSignature_iff,
    readDescriptor_iff]

theorem Signature.exists_parse_ok {text : String} {s : Signature} :
    (∃ m : ProperSignature, Signature.parse text = .ok m ∧ m.toSignature = s) ↔
      Descriptor.parse text = .ok s.toDescriptor := by
  constructor
  · rintro ⟨m, hm, rfl⟩
    exact Signature.parse_ok.mp hm
  · intro h
    obtain ⟨m, rfl⟩ := Signature.exists_proper (Descriptor.parse_ok.mp h).1
    exact ⟨m, Signature.parse_ok.mpr h, rfl⟩

/-- The readers accept the grammar and nothing else: a text is read as a type exactly when it is how
the type is printed, and as a signature exactly when it is read as the signature's type. Any other
text, whatever characters it has, is rejected with an error at one of its character boundaries. -/
theorem Descriptor.parse_exact (text : String) :
    (∀ d : Descriptor, Descriptor.parse text = .ok d ↔ d.Canonical ∧ d.text = text) ∧
    (∀ s : Signature, (∃ m : ProperSignature, Signature.parse text = .ok m ∧ m.toSignature = s) ↔
      Descriptor.parse text = .ok s.toDescriptor) ∧
    ((∃ d : Descriptor, d.Canonical ∧ d.text = text) ∨
      ∃ fault offset, Descriptor.parse text = .error (.malformed text (.unreadable fault offset)) ∧
        (String.Pos.Raw.mk offset).IsValid text) ∧
    ((∃ m : ProperSignature, m.toDescriptor.Canonical ∧ m.text = text) ∨
      ∃ fault offset, Signature.parse text = .error (.malformed text (.unreadable fault offset)) ∧
        (String.Pos.Raw.mk offset).IsValid text) := by
  refine ⟨fun d => parse_ok, fun s => Signature.exists_parse_ok, ?_, ?_⟩
  · cases h : Descriptor.parse text with
    | ok d => exact .inl ⟨d, parse_ok.mp h⟩
    | error e =>
      obtain ⟨fault, offset, rfl, hvalid⟩ := readAll_error readDescriptor_leavesEnd h
      exact .inr ⟨fault, offset, rfl, hvalid⟩
  · cases h : Signature.parse text with
    | ok m => exact .inl ⟨m, parse_ok.mp (Signature.parse_ok.mp h)⟩
    | error e =>
      obtain ⟨fault, offset, rfl, hvalid⟩ := readAll_error readSignature_leavesEnd h
      exact .inr ⟨fault, offset, rfl, hvalid⟩

-- the offset counts bytes, of which the letter in the name has two
example : Descriptor.parse "Lé;I" =
    .error (.malformed "Lé;I" (.unreadable .trailingCharacters 4)) := by
  cbv

end StackCode
