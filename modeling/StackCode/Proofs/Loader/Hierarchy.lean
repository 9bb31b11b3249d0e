import StackCode.Proofs.Loader.Linking
import Mathlib.Data.List.Infix
import Mathlib.Data.List.Nodup

/-!
# The class hierarchy of a loader

Whatever was defined in whatever order, the classes of a loader form a tree below the root class.
Following superclasses from a class is a walk along stored classes, of distinct names, that ends at
the root. A new class goes in front of the line of its superclass, and nothing stored is replaced.
-/

namespace StackCode

namespace LoadedClass

/-- The classes met by following superclasses, the class itself first, up to one that has none. -/
inductive Line : LoadedClass → List LoadedClass → Prop where
  | last {c : LoadedClass} (super : c.superClass? = none) : Line c [c]
  | cons {c above : LoadedClass} {line : List LoadedClass} (super : c.superClass? = some above)
      (line_above : Line above line) : Line c (c :: line)

variable {c above s : LoadedClass} {line line' : List LoadedClass}

theorem chain_of_superClass? (h : c.superClass? = some above) :
    c.chain = c.declared :: above.chain := by
  unfold superClass? at h
  split at h
  · cases h
  · rename_i d ds hds
    cases h
    rw [chain, hds, chain]

theorem chain_of_superClass?_none (h : c.superClass? = none) : c.chain = [c.declared] := by
  unfold superClass? at h
  split at h
  · rename_i hds
    rw [chain, hds]
  · cases h

theorem Line.head? (h : Line c line) : line.head? = some c := by
  cases h <;> rfl

theorem Line.unique (h : Line c line) (h' : Line c line') : line = line' := by
  induction h generalizing line' with
  | last hs =>
    cases h' with
    | last => rfl
    | cons hs' => simp [hs] at hs'
  | cons hs _ ih =>
    cases h' with
    | last hs' => simp [hs'] at hs
    | cons hs' ha =>
      cases hs.symm.trans hs'
      rw [ih ha]

theorem Line.of_mem (h : Line c line) (hs : s ∈ line) : ∃ rest, Line s rest ∧ rest <:+ line := by
  induction h with
  | @last c hc =>
    rw [List.mem_singleton.mp hs]
    exact ⟨[c], .last hc, List.suffix_rfl⟩
  | @cons c above line hc ha ih =>
    rcases List.mem_cons.mp hs with rfl | hs
    · exact ⟨_, .cons hc ha, List.suffix_rfl⟩
    · obtain ⟨rest, hrest, hsuffix⟩ := ih hs
      exact ⟨rest, hrest, hsuffix.trans (List.suffix_cons _ _)⟩

theorem Line.suffix_of_mem (h : Line c line) (hs : s ∈ line) (hs' : Line s line') :
    line' <:+ line := by
  obtain ⟨rest, hrest, hsuffix⟩ := h.of_mem hs
  rwa [hs'.unique hrest]

theorem Line.isSubclassOf (h : Line c line) (name : String) :
    c.isSubclassOf name ↔ ∃ s ∈ line, s.name = name := by
  induction h with
  | last hs => simp [LoadedClass.isSubclassOf, chain_of_superClass?_none hs, LoadedClass.name]
  | cons hs _ ih =>
    rw [List.exists_mem_cons_iff, ← ih, LoadedClass.isSubclassOf, chain_of_superClass? hs]
    simp [LoadedClass.isSubclassOf, LoadedClass.name]

end LoadedClass

namespace Loader

/-! ## Trees of classes -/

/-- A line of distinct classes, each the very one stored under its name, up to the root class. -/
structure InPlace (l : Loader) (line : List LoadedClass) : Prop where
  distinct : (line.map LoadedClass.name).Nodup
  stored : ∀ s ∈ line, l.class? s.name = some s
  rooted : ∃ root, line.getLast? = some root ∧ root.name = Descriptor.rootClassName

/-- The classes of a loader form a tree below the root class, and none is below a final one. -/
structure Hierarchy (l : Loader) : Prop where
  numbered : ∀ c ∈ l.classes, c.loader = l.number
  stored : ∀ c name, l.class? name = some c ↔ c ∈ l.classes ∧ c.name = name
  root_mem : ∃ c ∈ l.classes, c.name = Descriptor.rootClassName
  root_iff : ∀ c ∈ l.classes, c.superClass? = none ↔ c.name = Descriptor.rootClassName
  line : ∀ c ∈ l.classes, ∃ line, c.Line line ∧ l.InPlace line
  extensible : ∀ c ∈ l.classes, ∀ above, c.superClass? = some above →
    above.access.contains .finalFlag = false

/-- Being a subclass is being below or at a class on the line, a partial order of the classes. -/
structure SubclassOrder (l : Loader) : Prop where
  iff_line : ∀ c ∈ l.classes, ∀ line, c.Line line →
    ∀ name, c.isSubclassOf name ↔ ∃ s ∈ line, s.name = name
  refl : ∀ c ∈ l.classes, c.isSubclassOf c.name
  trans : ∀ c ∈ l.classes, ∀ d ∈ l.classes, ∀ name,
    c.isSubclassOf d.name → d.isSubclassOf name → c.isSubclassOf name
  antisymm : ∀ c ∈ l.classes, ∀ d ∈ l.classes,
    c.isSubclassOf d.name → d.isSubclassOf c.name → c = d

def AddsAtMost (l : Loader) (d : ClassDefinition) : Prop :=
  (∃ e, l.define d = .error e ∧ l.after d = l) ∨
  ∃ c, l.define d = .ok (c, l.after d) ∧ c.name = d.name ∧ l.class? d.name = none ∧
    (l.after d).classes = c :: l.classes ∧
    ∀ name, (l.after d).class? name = if name = d.name then some c else l.class? name

variable {l l' : Loader} {line : List LoadedClass} {c d : LoadedClass}

theorem addsAtMost (l : Loader) (d : ClassDefinition) : l.AddsAtMost d := by
  cases hl : l.define d with
  | error e => exact .inl ⟨e, hl, by rw [after, hl]⟩
  | ok p =>
    obtain ⟨c, l'⟩ := p
    have hafter : l.after d = l' := by rw [after, hl]
    obtain ⟨hfresh, _, _, _, _, _, _, hc, hl'⟩ := define_eq_ok hl
    rw [AddsAtMost, hafter]
    exact .inr ⟨c, hl, by rw [hc]; rfl, hfresh, by rw [hl'], class?_of_define hl⟩

/-! ## The tree is kept -/

theorem name_of_class? {name : String} (h : l.class? name = some c) : c.name = name := by
  simpa using List.find?_some h

theorem InPlace.extends (h : l.InPlace line) (he : l.Extends l') : l'.InPlace line where
  distinct := h.distinct
  stored s hs := he.class? s.name s (h.stored s hs)
  rooted := h.rooted

theorem InPlace.cons (h : l.InPlace line) (he : l.Extends l') (hfresh : l.class? c.name = none)
    (hc : l'.class? c.name = some c) : l'.InPlace (c :: line) where
  distinct := by
    rw [List.map_cons, List.nodup_cons]
    refine ⟨fun hm => ?_, h.distinct⟩
    obtain ⟨s, hs, hname⟩ := List.mem_map.mp hm
    have := h.stored s hs
    rw [hname, hfresh] at this
    cases this
  stored := List.forall_mem_cons.mpr ⟨hc, (h.extends he).stored⟩
  rooted := by
    obtain ⟨root, hlast, hroot⟩ := h.rooted
    exact ⟨root, by simp [List.getLast?_cons, hlast], hroot⟩

theorem forall_mem_initial {number : Nat} {options : LoaderOptions} {P : LoadedClass → Prop} :
    (∀ c ∈ (initial number options).classes, P c) ↔
      P ⟨number, rootClass, []⟩ ∧ P ⟨number, stringClass, [rootClass]⟩ := by
  simp [initial]

theorem hierarchy_initial (number : Nat) (options : LoaderOptions) :
    (initial number options).Hierarchy := by
  have hne : Descriptor.stringClassName ≠ Descriptor.rootClassName := by decide
  have hextensible : rootClass.access.contains .finalFlag = false := by decide
  have hown : ∀ c ∈ (initial number options).classes,
      (initial number options).class? c.name = some c := forall_mem_initial.mpr ⟨rfl, rfl⟩
  obtain ⟨hroot, hstring⟩ := forall_mem_initial.mp hown
  constructor
  case numbered => exact forall_mem_initial.mpr ⟨rfl, rfl⟩
  case stored =>
    refine fun c name => ⟨fun h => ⟨mem_of_class? h, name_of_class? h⟩, ?_⟩
    rintro ⟨hc, rfl⟩
    exact hown c hc
  case root_mem => exact ⟨_, List.mem_cons_self, rfl⟩
  case root_iff => exact forall_mem_initial.mpr ⟨iff_of_true rfl rfl, iff_of_false nofun hne⟩
  case line =>
    have hline : LoadedClass.Line ⟨number, rootClass, []⟩ [⟨number, rootClass, []⟩] := .last rfl
    refine forall_mem_initial.mpr ⟨⟨_, hline, ?_⟩, ⟨_, .cons rfl hline, ?_⟩⟩
    · exact ⟨List.nodup_singleton _, by simpa using hroot, _, rfl, rfl⟩
    · exact ⟨List.nodup_cons.mpr ⟨List.mem_singleton.not.mpr hne, List.nodup_singleton _⟩,
        by simpa using ⟨hstring, hroot⟩, _, rfl, rfl⟩
  case extensible =>
    refine forall_mem_initial.mpr ⟨nofun, fun above h => ?_⟩
    cases h
    exact hextensible

theorem stored_of_define (h : ∀ c name, l.class? name = some c ↔ c ∈ l.classes ∧ c.name = name)
    {d : ClassDefinition} (hl : l.define d = .ok (c, l')) (c' : LoadedClass) (name : String) :
    l'.class? name = some c' ↔ c' ∈ l'.classes ∧ c'.name = name := by
  obtain ⟨hfresh, _, _, _, _, _, _, hc, hl'⟩ := define_eq_ok hl
  have hname : c.name = d.name := by rw [hc]; rfl
  have hclasses : l'.classes = c :: l.classes := by rw [hl']
  rw [class?_of_define hl, hclasses, List.mem_cons]
  by_cases hn : name = d.name
  · subst hn
    have hold : ¬ (c' ∈ l.classes ∧ c'.name = d.name) := by
      rw [← h, hfresh]
      exact nofun
    rw [if_pos rfl]
    refine ⟨fun he => ?_, fun ⟨hm, hn⟩ => ?_⟩
    · cases he
      exact ⟨.inl rfl, hname⟩
    · rcases hm with rfl | hm
      · rfl
      · exact absurd ⟨hm, hn⟩ hold
  · rw [if_neg hn, h]
    refine and_congr_left fun hn' => ⟨.inr, fun hm => hm.resolve_left fun he => ?_⟩
    exact hn (by rw [← hn', he, hname])

theorem Hierarchy.define (h : l.Hierarchy) {d : ClassDefinition} (hl : l.define d = .ok (c, l')) :
    l'.Hierarchy := by
  have he := extends_of_define hl
  have hstored := stored_of_define h.stored hl
  obtain ⟨hfresh, _, superName, above, _, habove, hextensible, hc, hl'⟩ := define_eq_ok hl
  have hmem := mem_of_class? habove
  have hname : c.name = d.name := by rw [hc]; rfl
  have hsuper : c.superClass? = some above := by
    rw [hc, ← h.numbered above hmem]
    rfl
  have hclasses : l'.classes = c :: l.classes := by rw [hl']
  constructor
  case stored => exact hstored
  all_goals rw [hclasses]
  case numbered =>
    rw [show l'.number = l.number by rw [hl']]
    exact List.forall_mem_cons.mpr ⟨by rw [hc], h.numbered⟩
  case root_mem =>
    obtain ⟨root, hroot, hrootName⟩ := h.root_mem
    exact ⟨root, List.mem_cons_of_mem _ hroot, hrootName⟩
  case root_iff =>
    -- the root is there before, so the new class has another name
    have hne : c.name ≠ Descriptor.rootClassName := by
      obtain ⟨root, hroot, hrootName⟩ := h.root_mem
      rintro hn
      have := (h.stored root c.name).mpr ⟨hroot, hrootName.trans hn.symm⟩
      simp [hname, hfresh] at this
    exact List.forall_mem_cons.mpr ⟨by simp [hsuper, hne], h.root_iff⟩
  case line =>
    refine List.forall_mem_cons.mpr ⟨?_, fun c' hc' => ?_⟩
    · obtain ⟨line, hline, hplace⟩ := h.line above hmem
      have hnew : l'.class? c.name = some c :=
        (hstored c c.name).mpr ⟨hclasses ▸ List.mem_cons_self, rfl⟩
      exact ⟨c :: line, .cons hsuper hline, hplace.cons he (hname ▸ hfresh) hnew⟩
    · obtain ⟨line, hline, hplace⟩ := h.line c' hc'
      exact ⟨line, hline, hplace.extends he⟩
  case extensible =>
    refine List.forall_mem_cons.mpr ⟨fun above' ha => ?_, h.extensible⟩
    cases hsuper.symm.trans ha
    exact hextensible

theorem Hierarchy.defineAll (h : l.Hierarchy) (ds : List ClassDefinition) :
    (l.defineAll ds).Hierarchy :=
  defineAll_induction h fun _ _ _ _ _ hl hd => hl.define hd

/-! ## The order of subclasses -/

theorem Hierarchy.mem_line (h : l.Hierarchy) (hline : c.Line line) (hplace : l.InPlace line)
    (hd : d ∈ l.classes) : c.isSubclassOf d.name ↔ d ∈ line := by
  rw [hline.isSubclassOf]
  refine ⟨fun ⟨s, hs, hname⟩ => ?_, fun hm => ⟨d, hm, rfl⟩⟩
  have hstored := hplace.stored s hs
  rw [hname, (h.stored d d.name).mpr ⟨hd, rfl⟩] at hstored
  rwa [Option.some.inj hstored]

theorem Hierarchy.subclassOrder (h : l.Hierarchy) : l.SubclassOrder where
  iff_line c _ line hline := hline.isSubclassOf
  refl c _ := by simp [LoadedClass.isSubclassOf, LoadedClass.chain, LoadedClass.name]
  trans c hc d hd name hcd hdn := by
    obtain ⟨line, hline, hplace⟩ := h.line c hc
    obtain ⟨line', hline', -⟩ := h.line d hd
    have hsuffix := hline.suffix_of_mem ((h.mem_line hline hplace hd).mp hcd) hline'
    obtain ⟨s, hs, hname⟩ := (hline'.isSubclassOf name).mp hdn
    exact (hline.isSubclassOf name).mpr ⟨s, hsuffix.mem hs, hname⟩
  antisymm c hc d hd hcd hdc := by
    obtain ⟨line, hline, hplace⟩ := h.line c hc
    obtain ⟨line', hline', hplace'⟩ := h.line d hd
    -- each class is on the other's line, so both lines are one
    have hsuffix := hline.suffix_of_mem ((h.mem_line hline hplace hd).mp hcd) hline'
    have hsuffix' := hline'.suffix_of_mem ((h.mem_line hline' hplace' hc).mp hdc) hline
    have heq := hsuffix.eq_of_length_le hsuffix'.length_le
    have hhead := hline.head?
    rw [← heq, hline'.head?] at hhead
    exact (Option.some.inj hhead).symm

/-- After any definitions, tried in any order, the classes of a loader form a tree below the root
class, whose lines order them, and one more definition adds one class or leaves all as it was. -/
theorem defineAll_hierarchy (number : Nat) (options : LoaderOptions) (ds : List ClassDefinition) :
    ((initial number options).defineAll ds).Hierarchy ∧
    ((initial number options).defineAll ds).SubclassOrder ∧
    ∀ d, ((initial number options).defineAll ds).AddsAtMost d := by
  have h := (hierarchy_initial number options).defineAll ds
  exact ⟨h, h.subclassOrder, addsAtMost _⟩

-- the first definition fails, as its superclass is not there yet
example :
    ((initial 0 {}).defineAll [⟨.publicFlag, "B", some "A", []⟩,
      ⟨.publicFlag, "A", some Descriptor.rootClassName, []⟩,
      ⟨.publicFlag, "B", some "A", []⟩]).classes.map LoadedClass.name =
      ["B", "A", Descriptor.rootClassName, Descriptor.stringClassName] := by
  decide

end Loader

end StackCode
