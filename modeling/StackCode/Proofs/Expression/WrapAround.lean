import Mathlib.Data.Int.ModEq
import StackCode.Proofs.Expression.Correctness

/-!
# Conversions of whole numbers

Converted to another integral type, a number becomes the one in the range of that type that differs
from it by a multiple of two to the type's width. The machine has no integral values but ints and
longs: a long is cut down to an int first, and an int may stand for a number of a smaller type as it
is. That this makes no difference rests on each value being in the range of its type.
-/

namespace StackCode

/-! ## Kinds of values -/

theorem Conversion.target_of_between? {source target : Kind} {c : Conversion}
    (h : between? source target = some c) : c.target = target := by
  unfold between? at h
  split at h
  · cases h
  · have hfound : c.source = source ∧ c.target = target := by simpa using List.find?_some h
    exact hfound.2

theorem Conversion.between?_eq_none {p q : Primitive} (h : between? p.kind q.kind = none) :
    p.kind = q.kind := by
  cases p <;> cases q <;> first | rfl | cases h

theorem Primitive.kind_of_narrow? {p : Primitive} {v w : Value} (h : p.narrow? v = some w)
    (hv : v.kind? = some p.kind) : w.kind? = some p.kind := by
  cases p with
  | byte | short | char => exact Value.convert_kind h
  | _ =>
    cases h
    exact hv

theorem Value.kind_of_cast? {p q : Primitive} {v w : Value} (hv : v.kind? = some p.kind)
    (h : v.cast? (.primitive p) (.primitive q) = some w) : w.kind? = some q.kind := by
  simp only [Value.cast?] at h
  cases hc : Conversion.between? p.kind q.kind with
  | none =>
    rw [hc] at h
    exact Primitive.kind_of_narrow? h (Conversion.between?_eq_none hc ▸ hv)
  | some c =>
    rw [hc] at h
    obtain ⟨u, hu, hw⟩ := Option.bind_eq_some_iff.mp h
    refine Primitive.kind_of_narrow? hw ?_
    rw [Value.convert_kind hu, Conversion.target_of_between? hc]

namespace Evaluation
variable {α β : Type}

theorem bind_eq_value {r : Evaluation α} {f : Machine → α → Evaluation β} {m : Machine} {b : β} :
    r.bind f = .value m b ↔ ∃ m' a, r = .value m' a ∧ f m' a = .value m b := by
  cases r <;> simp [bind]

theorem ofOption_eq_value {m m' : Machine} {o : Option α} {a : α} :
    ofOption m o = .value m' a ↔ m = m' ∧ o = some a := by
  cases o <;> simp [ofOption]

theorem kind_of_ofCall {fuel : Nat} {m m' : Machine} {ref : MethodRef} {vs : List Value} {v : Value}
    (h : ofCall fuel m ref vs = .value m' v) : v.kind? = ref.method.signature.returns.kind? := by
  unfold ofCall at h
  split at h
  · cases h
  · split at h
    · split at h
      · cases h
        assumption
      · cases h
    · cases h
  · cases h

end Evaluation

theorem Expression.Typed.kind_of_evaluate {x : Expression} (hx : x.Typed) {fuel : Nat}
    {locals : Array Value} {m m' : Machine} {stack : List Value} {v : Value}
    (hs : x.Suits locals (stack.map Value.kind?))
    (h : x.evaluate fuel locals m stack = .value m' v) : v.kind? = x.resultType.kind? := by
  match x with
  | .constant l =>
    rw [evaluate] at h
    cases l <;> cases h <;> rfl
  | .null type =>
    rw [evaluate] at h
    cases h
    cases type <;> first | rfl | cases hx
  | .load type index =>
    obtain ⟨w, hw, hkind⟩ := hs
    rw [evaluate, hw] at h
    cases h
    exact hkind
  | .dup type =>
    rw [evaluate, Evaluation.ofOption_eq_value] at h
    obtain ⟨-, h⟩ := h
    have hs' : (stack.map Value.kind?).head? = some type.kind? := hs
    rw [List.head?_map, h] at hs'
    exact Option.some.inj hs'
  | .convert type operand =>
    obtain ⟨hoperand, -, hfrom, hto⟩ := hx
    rw [evaluate, Evaluation.bind_eq_value] at h
    obtain ⟨m₁, u, hu, h⟩ := h
    have hkind := hoperand.kind_of_evaluate (x := operand) hs hu
    obtain ⟨p, hp⟩ := Descriptor.eq_primitive_of_isNumeric hfrom
    obtain ⟨q, rfl⟩ := Descriptor.eq_primitive_of_isNumeric hto
    rw [hp] at h hkind
    exact Value.kind_of_cast? hkind (Evaluation.ofOption_eq_value.mp h).2
  | .compare op left right =>
    simp only [evaluate, Evaluation.bind_eq_value, Evaluation.ofOption_eq_value] at h
    obtain ⟨_, _, -, _, _, -, -, h⟩ := h
    obtain ⟨b, -, rfl⟩ := Option.map_eq_some_iff.mp h
    rfl
  | .negate operand =>
    simp only [evaluate, Evaluation.bind_eq_value, Evaluation.ofOption_eq_value] at h
    obtain ⟨_, _, -, -, h⟩ := h
    obtain ⟨b, -, rfl⟩ := Option.map_eq_some_iff.mp h
    rfl
  | .call ref arguments =>
    rw [evaluate, Evaluation.bind_eq_value] at h
    obtain ⟨_, _, -, h⟩ := h
    exact Evaluation.kind_of_ofCall h
/-! ## Ranges -/

inductive Integral where
  | byte | short | char | int | long
deriving DecidableEq

namespace Integral

def primitive : Integral → Primitive
  | byte => .byte
  | short => .short
  | char => .char
  | int => .int
  | long => .long

def type (p : Integral) : Descriptor := .primitive p.primitive

def width : Integral → Nat
  | byte => 8
  | short | char => 16
  | int => 32
  | long => 64

/-- The least number. Only `char` has no negative ones. -/
def least : Integral → Int
  | char => 0
  | p => -2 ^ (p.width - 1)

def InRange (p : Integral) (n : Int) : Prop := p.least ≤ n ∧ n < p.least + 2 ^ p.width

instance (p : Integral) (n : Int) : Decidable (p.InRange n) := inferInstanceAs (Decidable (_ ∧ _))

def wrap (p : Integral) (n : Int) : Int := p.least + (n - p.least) % 2 ^ p.width

section
variable {p q : Integral} {n k : Int}

theorem inRange_wrap (p : Integral) (n : Int) : p.InRange (p.wrap n) := by
  have hpos : (0 : Int) < 2 ^ p.width := Int.pow_pos (by decide)
  have hlow := Int.emod_nonneg (n - p.least) hpos.ne'
  have hhigh := Int.emod_lt_of_pos (n - p.least) hpos
  exact ⟨Int.le_add_of_nonneg_right hlow, Int.add_lt_add_left hhigh _⟩

theorem wrap_modEq (p : Integral) (n : Int) : p.wrap n ≡ n [ZMOD 2 ^ p.width] := by
  simpa [wrap] using (Int.ModEq.refl p.least).add (Int.mod_modEq (n - p.least) (2 ^ p.width))

theorem eq_wrap_iff : k = p.wrap n ↔ p.InRange k ∧ k ≡ n [ZMOD 2 ^ p.width] := by
  constructor
  · rintro rfl
    exact ⟨p.inRange_wrap n, p.wrap_modEq n⟩
  · rintro ⟨⟨hlow, hhigh⟩, hmod⟩
    have hsame : (k - p.least) % 2 ^ p.width = (n - p.least) % 2 ^ p.width :=
      hmod.sub (Int.ModEq.refl p.least)
    rw [Int.emod_eq_of_lt (by omega) (by omega)] at hsame
    rw [wrap, ← hsame]
    omega

theorem wrap_of_inRange (h : p.InRange n) : p.wrap n = n :=
  (eq_wrap_iff.mpr ⟨h, .refl n⟩).symm

theorem eq_wrap_of_bmod (hk : p.InRange k) (h : k = n.bmod (2 ^ p.width)) : k = p.wrap n := by
  refine eq_wrap_iff.mpr ⟨hk, ?_⟩
  have hmod : n.bmod (2 ^ p.width) % ((2 ^ p.width : Nat) : Int) = n % ((2 ^ p.width : Nat) : Int) :=
    Int.bmod_emod
  rw [← h] at hmod
  exact_mod_cast hmod

theorem wrap_wrap (h : q.width ≤ p.width) : q.wrap (p.wrap n) = q.wrap n :=
  eq_wrap_iff.mpr ⟨q.inRange_wrap _,
    (q.wrap_modEq _).trans ((p.wrap_modEq n).of_dvd (pow_dvd_pow 2 h))⟩

theorem InRange.int (h : p.InRange n) (hp : p ≠ long) : int.InRange n := by
  cases p with
  | long => contradiction
  | _ =>
    simp only [InRange, least, width] at h ⊢
    omega

theorem InRange.long (h : p.InRange n) : long.InRange n := by
  cases p <;> simp only [InRange, least, width] at h ⊢ <;> omega

end

end Integral

/-! ## Values in a range -/

def Value.number? : Value → Option Int
  | .int v => some v.toInt
  | .long v => some v.toInt
  | _ => none

namespace Integral

/-- The machine's value for a number: a long, or an int for all the other types. -/
def value : Integral → Int → Value
  | long, n => .long (.ofInt n)
  | _, n => .int (.ofInt n)

section
variable {p q : Integral} {n : Int}

theorem value_int (hp : p ≠ long) (n : Int) : p.value n = .int (.ofInt n) := by
  cases p <;> first | rfl | contradiction

theorem kind_int (hp : p ≠ long) : p.primitive.kind = .int := by
  cases p <;> first | rfl | contradiction

theorem toInt_int8 (n : Int) : (Int8.ofInt n).toInt = byte.wrap n :=
  eq_wrap_of_bmod ⟨Int8.le_toInt _, Int8.toInt_lt _⟩ Int8.toInt_ofInt

theorem toInt_int16 (n : Int) : (Int16.ofInt n).toInt = short.wrap n :=
  eq_wrap_of_bmod ⟨Int16.le_toInt _, Int16.toInt_lt _⟩ Int16.toInt_ofInt

theorem toInt_int32 (n : Int) : (Int32.ofInt n).toInt = int.wrap n :=
  eq_wrap_of_bmod ⟨Int32.le_toInt _, Int32.toInt_lt _⟩ Int32.toInt_ofInt

theorem toInt_int64 (n : Int) : (Int64.ofInt n).toInt = long.wrap n :=
  eq_wrap_of_bmod ⟨Int64.le_toInt _, Int64.toInt_lt _⟩ Int64.toInt_ofInt

theorem number?_value (h : p.InRange n) : (p.value n).number? = some n := by
  by_cases hp : p = long
  · rw [hp, value, Value.number?, toInt_int64, wrap_of_inRange h.long]
  · rw [value_int hp, Value.number?, toInt_int32, wrap_of_inRange (h.int hp)]

theorem kind?_value (p : Integral) (n : Int) : (p.value n).kind? = p.type.kind? := by
  cases p <;> rfl

theorem eq_value {v : Value} (hkind : v.kind? = p.type.kind?) (hn : v.number? = some n) :
    v = p.value n := by
  rw [← kind?_value p n] at hkind
  cases v with
  | int v =>
    obtain rfl : v.toInt = n := Option.some.inj hn
    cases p <;> first | exact congrArg Value.int (Int32.ofInt_toInt v).symm | cases hkind
  | long v =>
    obtain rfl : v.toInt = n := Option.some.inj hn
    cases p <;> first | exact congrArg Value.long (Int64.ofInt_toInt v).symm | cases hkind
  | _ => cases hn

theorem narrow?_int (hq : q ≠ long) (n : Int) :
    q.primitive.narrow? (.int (.ofInt n)) = some (q.value (q.wrap n)) := by
  cases q with
  | byte =>
    change some (Value.int (Int32.ofInt n).toInt8.toInt32) = some (Value.int (.ofInt (byte.wrap n)))
    rw [Int32.toInt8_ofInt, ← Int32.ofInt_int8ToInt, toInt_int8]
  | short =>
    change some (Value.int (Int32.ofInt n).toInt16.toInt32) =
      some (Value.int (.ofInt (short.wrap n)))
    rw [Int32.toInt16_ofInt, ← Int32.ofInt_int16ToInt, toInt_int16]
  | char =>
    have hmod : (Int32.ofInt n).toInt % 65536 = char.wrap n := by
      rw [toInt_int32, ← wrap_wrap (q := char) (p := int) (by decide)]
      simp [wrap, least, width]
    change some (Value.int (.ofInt ((Int32.ofInt n).toInt % 65536))) =
      some (Value.int (.ofInt (char.wrap n)))
    rw [hmod]
  | int =>
    change some (Value.int (.ofInt n)) = some (Value.int (.ofInt (int.wrap n)))
    rw [← toInt_int32, Int32.ofInt_toInt]
  | long => contradiction

theorem cast?_value (h : p.InRange n) (q : Integral) :
    (p.value n).cast? p.type q.type = some (q.value (q.wrap n)) := by
  simp only [type, Value.cast?]
  by_cases hp : p = long <;> by_cases hq : q = long
  · rw [hp, hq, wrap_of_inRange h.long]
    rfl
  · -- a long is cut down to an int first
    have hcut : (Value.long (.ofInt n)).convert .l2i = some (.int (.ofInt n)) := by
      rw [Value.convert, Int64.toInt32_ofInt]
    rw [hp, kind_int hq]
    exact (congrArg (Option.bind · q.primitive.narrow?) hcut).trans (narrow?_int hq n)
  · obtain ⟨hlow, hhigh⟩ := h.int hp
    have hwide : (Value.int (.ofInt n)).convert .i2l = some (.long (.ofInt n)) := by
      rw [Value.convert, Int32.toInt64_ofInt hlow (Int.le_of_lt_add_one hhigh)]
    rw [hq, kind_int hp, value_int hp, wrap_of_inRange h.long]
    exact congrArg (Option.bind · Primitive.long.narrow?) hwide
  · rw [kind_int hp, kind_int hq, value_int hp]
    exact narrow?_int hq n

theorem type_inj (h : p.type = q.type) : p = q := by
  cases p <;> cases q <;> first | rfl | cases h

theorem isNumeric_type (p : Integral) : p.type.isNumeric = true := by
  cases p <;> rfl

end

/-! ## Conversions one after the other -/

def wrapAll (chain : List Integral) (n : Int) : Int := chain.foldl (fun n p => p.wrap n) n

theorem inRange_wrapAll {source : Integral} {n : Int} (h : source.InRange n) (chain : List Integral) :
    (chain.getLastD source).InRange (wrapAll chain n) := by
  induction chain generalizing source n with
  | nil => exact h
  | cons p chain ih =>
    rw [List.getLastD_cons]
    exact ih (p.inRange_wrap n)

end Integral

namespace Expression

def convertThrough (x : Expression) (chain : List Integral) : Except CodegenError Expression :=
  chain.foldlM (fun x p => x.convertTo p.type) x

/-- Wherever `x` has a number `n` of type `p`, the expression `y` has the number `f n` of type `q`. -/
structure Becomes (p q : Integral) (f : Int → Int) (x y : Expression) : Prop where
  built : y.Built
  type : y.resultType = q.type
  suits : ∀ locals kinds, x.Suits locals kinds → y.Suits locals kinds
  evaluate : ∀ fuel locals m stack m' n, p.InRange n →
    x.evaluate fuel locals m stack = .value m' (p.value n) →
    y.evaluate fuel locals m stack = .value m' (q.value (f n))

variable {x : Expression} {p : Integral}

theorem Built.convertTo_type (hx : x.Built) (htype : x.resultType = p.type) (q : Integral) :
    ∃ y, x.convertTo q.type = .ok y ∧ x.Becomes p q q.wrap y := by
  by_cases hpq : p = q
  · subst hpq
    refine ⟨x, if_pos htype, hx, htype, fun _ _ h => h, fun _ _ _ _ _ n hn h => ?_⟩
    rw [h, Integral.wrap_of_inRange hn]
  · have hne : x.resultType ≠ q.type := fun h => hpq (Integral.type_inj (htype.symm.trans h))
    have hok : x.convertTo q.type = .ok (.convert q.type x) := by
      rw [convertTo, if_neg hne, htype, Integral.isNumeric_type, Integral.isNumeric_type]
      rfl
    refine ⟨_, hok, hx.convert hok, rfl, fun _ _ h => h, fun _ _ _ _ m' n hn h => ?_⟩
    rw [Expression.evaluate, h, htype]
    simp only [Evaluation.bind, Integral.cast?_value hn q, Evaluation.ofOption]

theorem Built.convertThrough (hx : x.Built) (htype : x.resultType = p.type)
    (chain : List Integral) : ∃ y, x.convertThrough chain = .ok y ∧
      x.Becomes p (chain.getLastD p) (Integral.wrapAll chain) y := by
  induction chain generalizing x p with
  | nil => exact ⟨x, rfl, hx, htype, fun _ _ h => h, fun _ _ _ _ _ _ _ h => h⟩
  | cons q chain ih =>
    obtain ⟨y, hy, hfirst⟩ := hx.convertTo_type htype q
    obtain ⟨z, hz, hrest⟩ := ih hfirst.built hfirst.type
    rw [List.getLastD_cons]
    refine ⟨z, ?_, hrest.built, hrest.type,
      fun locals kinds h => hrest.suits locals kinds (hfirst.suits locals kinds h),
      fun fuel locals m stack m' n hn h => ?_⟩
    · rw [Expression.convertThrough, List.foldlM_cons, hy]
      exact hz
    · exact hrest.evaluate fuel locals m stack m' _ (q.inRange_wrap n)
        (hfirst.evaluate fuel locals m stack m' n hn h)

theorem Typed.leads_value (hx : x.Typed) {e e' last : Emitter} {after : List Operation} {code : Code}
    {d : Nat} (hs : e.Sound) (hd : e.depth = some d) (hg : x.generate e = .ok e')
    (hl : e'.applyAll after = .ok last) (hf : last.finish = .ok code) {c : Configuration}
    {values : List Value} (hcode : c.active.code = code) (hpc : c.active.pc = e.instructions.size)
    (hstack : c.active.stack = .holding values code.maxStack) (hslots : slotsOf values = d)
    (hsuits : x.Suits c.active.locals (values.map Value.kind?)) {fuel : Nat} {m : Machine} {v : Value}
    (heval : x.evaluate fuel c.active.locals c.machine values = .value m v) :
    (Progress.running c).Leads (.running { c with
      machine := m
      active := { c.active with
        pc := e'.instructions.size
        stack := .holding (v :: values) code.maxStack } }) := by
  subst hcode
  have hc : c.active.code.Carries e' :=
    (Emitter.carries_of_finish hf).of_extends (Emitter.extends_applyAll hl)
  have hstart : c.holding c.machine e.instructions.size values = c := by
    rw [Configuration.holding, ← hpc, ← hstack]
  have htells := (hx.realizes fuel hc hs hd (applyAll_generate hg)).2 c.machine values hslots hsuits
  rw [Configuration.Computes, hstart, heval] at htells
  obtain ⟨-, hmoves⟩ := htells
  rw [Configuration.Moves, hstart] at hmoves
  exact hmoves

/-- **Conversions of whole numbers take them around.** Wherever an emitter puts an expression that is
converted to one type after the other, the code leads to the number taken around into the range of each
type in turn, and so to one in the range of the last. Each time it is the only number of the range that
differs by a multiple of two to the width, and the way to a type of a wider range and back changes
nothing. -/
theorem Built.wraps (hx : x.Built) (source : Integral) (htype : x.resultType = source.type) :
    (∀ (p : Integral) (n k : Int), k = p.wrap n ↔ p.InRange k ∧ k ≡ n [ZMOD 2 ^ p.width]) ∧
    (∀ chain : List Integral, ∃ y, x.convertThrough chain = .ok y ∧
      y.resultType = (chain.getLastD source).type ∧
      ∀ (access : Access) (method : Method) (options : EmitOptions) (before : List Operation)
          (e : Emitter) (d : Nat),
        (Emitter.initial access method options).applyAll before = .ok e → e.depth = some d →
        ∃ e', y.generate e = .ok e' ∧
          ∀ (last : Emitter) (after : List Operation) (code : Code), e'.applyAll after = .ok last →
            last.finish = .ok code →
            ∀ (c : Configuration) (values : List Value), c.active.code = code →
              c.active.pc = e.instructions.size → c.active.stack = .holding values code.maxStack →
              slotsOf values = d → x.Suits c.active.locals (values.map Value.kind?) →
              ∀ (fuel : Nat) (m : Machine) (v : Value) (n : Int),
                x.evaluate fuel c.active.locals c.machine values = .value m v →
                v.number? = some n → source.InRange n →
                (chain.getLastD source).InRange (Integral.wrapAll chain n) ∧
                ∃ w : Value, w.kind? = y.resultType.kind? ∧
                  w.number? = some (Integral.wrapAll chain n) ∧
                  (Progress.running c).Leads (.running { c with
                    machine := m
                    active := { c.active with
                      pc := e'.instructions.size
                      stack := .holding (w :: values) code.maxStack } })) ∧
    ∀ wider : Integral, (∀ n, source.InRange n → wider.InRange n) →
      ∀ n, source.InRange n → Integral.wrapAll [wider, source] n = n := by
  refine ⟨fun p n k => Integral.eq_wrap_iff, fun chain => ?_, fun wider hwider n hn => ?_⟩
  · obtain ⟨y, hy, hbecomes⟩ := hx.convertThrough htype chain
    refine ⟨y, hy, hbecomes.type, fun access method options before e d he hd => ?_⟩
    have hs : e.Sound := (Emitter.sound_initial access method options).applyAll he
    obtain ⟨e', hg, -⟩ := hbecomes.built.typed.generates e
    refine ⟨e', hg, fun last after code hl hf c values hcode hpc hstack hslots hsuits fuel m v n
      heval hnumber hn => ?_⟩
    have hkind : v.kind? = source.type.kind? := htype ▸ hx.typed.kind_of_evaluate hsuits heval
    have hrange := Integral.inRange_wrapAll hn chain
    have hvalue := hbecomes.evaluate fuel _ _ _ m n hn (Integral.eq_value hkind hnumber ▸ heval)
    refine ⟨hrange, _, ?_, Integral.number?_value hrange, hbecomes.built.typed.leads_value hs hd hg hl
      hf hcode hpc hstack hslots (hbecomes.suits _ _ hsuits) hvalue⟩
    rw [hbecomes.type, Integral.kind?_value]
  · change source.wrap (wider.wrap n) = n
    rw [Integral.wrap_of_inRange (hwider n hn), Integral.wrap_of_inRange hn]

/-- 200 is -56 as a `byte`, which is 65480 as a `char`. -/
theorem Built.wraps_longToChar :
    (load .long 0).Built ∧ (load .long 0).resultType = Integral.long.type ∧
      ∃ (y : Expression) (e' last : Emitter) (code : Code) (w : Value),
      (load .long 0).convertThrough [.byte, .char] = .ok y ∧
        y.generate (.initial .staticFlag ⟨"f", .mk ⟨[.long], .char⟩⟩ {}) = .ok e' ∧
        e'.applyAll [.returnValue] = .ok last ∧ last.finish = .ok code ∧
        w.number? = some 65480 ∧
        (Progress.running ⟨relayMachine, .start code none [.long 200, .top], []⟩).Leads
          (.running ⟨relayMachine, { Activation.start code none [.long 200, .top] with
            pc := e'.instructions.size, stack := .holding [w] code.maxStack }, []⟩) := by
  have hx : (load .long 0).Built := .slot ⟨"x", .long, 0, ⟨0⟩, ⟨1⟩⟩ rfl
  have htype : (load .long 0).resultType = Integral.long.type := rfl
  obtain ⟨y, hy, -, hruns⟩ := (wraps hx .long htype).2.1 [.byte, .char]
  obtain ⟨e', hg, hleads⟩ := hruns .staticFlag ⟨"f", .mk ⟨[.long], .char⟩⟩ {} [] _ 0 rfl rfl
  obtain ⟨y', e'', last, code, hy', hg', hl, hf⟩ :
      ∃ (y : Expression) (e' last : Emitter) (code : Code),
        (load .long 0).convertThrough [.byte, .char] = .ok y ∧
          y.generate (.initial .staticFlag ⟨"f", .mk ⟨[.long], .char⟩⟩ {}) = .ok e' ∧
          e'.applyAll [.returnValue] = .ok last ∧ last.finish = .ok code :=
    ⟨_, _, _, _, by cbv, by cbv, by cbv, by cbv⟩
  obtain rfl : y' = y := Except.ok.inj (hy'.symm.trans hy)
  obtain rfl : e'' = e' := Except.ok.inj (hg'.symm.trans hg)
  obtain ⟨-, w, -, hw, hlead⟩ := hleads last [.returnValue] code hl hf
    ⟨relayMachine, .start code none [.long 200, .top], []⟩ [] rfl rfl rfl rfl ⟨_, rfl, rfl⟩ 0
    relayMachine (.long 200) 200 rfl rfl (by decide)
  exact ⟨hx, htype, _, _, last, code, w, hy, hg, hl, hf, hw, hlead⟩

end Expression

end StackCode
