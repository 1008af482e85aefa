import Lineage.Naming.Table
import Lineage.Proofs.Descriptor.RoundTrip
import Lineage.Proofs.Tables

/-!
Reversing a naming table.

Reversing moves every entry to the name that it leads to, so nothing is lost as
long as no two entries meet there.  Methods move to a new name and to a renamed
descriptor at once; two of them stay apart because the reversed table leads each
renamed descriptor back to the one it came from.  For that a name that a
descriptor mentions may be the target of another class only when it is renamed
itself.
-/

namespace Lineage

open Std (ExtTreeMap)

/-! ## One class -/

namespace ClassNaming

/-- What is said about the class `source`, read backwards. -/
def reversed (c : ClassNaming) (source : String) (rename : String → String) : ClassNaming :=
  { target := source
    fields := c.fields.foldl (fun t field target => t.insert target field) ∅
    methods := c.methods.foldl
      (fun t method target => t.insert ⟨target, rename method.descriptor⟩ method.name) ∅ }

theorem foldl_addField (l : List (String × String)) (c : ClassNaming) :
    l.foldl (fun r e => r.addField e.2 e.1) c =
      { c with fields := l.foldl (fun t e => t.insert e.2 e.1) c.fields } := by
  induction l generalizing c with
  | nil => rfl
  | cons e l ih => exact ih _

theorem foldl_addMethod (rename : String → String) (l : List (Selector × String))
    (c : ClassNaming) :
    l.foldl (fun r e => r.addMethod ⟨e.2, rename e.1.descriptor⟩ e.1.name) c =
      { c with
        methods := l.foldl (fun t e => t.insert ⟨e.2, rename e.1.descriptor⟩ e.1.name)
          c.methods } := by
  induction l generalizing c with
  | nil => rfl
  | cons e l ih => exact ih _

theorem addReversed_eq (c : ClassNaming) (source : String) (rename : String → String) :
    addReversed { empty with target := source } c rename = c.reversed source rename := by
  rw [addReversed, reversed]
  simp only [ExtTreeMap.foldl_eq_foldl_toList, foldl_addField, foldl_addMethod]
  rfl

/-- No two fields share a target, and no two methods of one descriptor do. -/
structure Reversible (c : ClassNaming) : Prop where
  fields : ∀ f f' g : String, c.fields[f]? = some g → c.fields[f']? = some g → f = f'
  methods : ∀ m m' d n : String,
    c.methods[Selector.mk m d]? = some n → c.methods[Selector.mk m' d]? = some n → m = m'

section

variable {c : ClassNaming} {source : String} {rename back : String → String}

theorem getElem?_fields_reversed (h : c.Reversible) (field target : String) :
    (c.reversed source rename).fields[target]? = some field ↔
      c.fields[field]? = some target := by
  have hinj : ∀ f f' g g' : String, c.fields[f]? = some g → c.fields[f']? = some g' →
      g = g' → f = f' := by
    rintro f f' g _ hf hf' rfl
    exact h.fields f f' g hf hf'
  rw [reversed, Tables.getElem?_foldl_eq_some_iff (fun field _ => field) hinj]
  constructor
  · rintro ⟨_, _, hfield, rfl, rfl⟩
    exact hfield
  · exact fun hfield => ⟨field, target, hfield, rfl, rfl⟩

/-- The descriptors that the class knows come back. -/
def Undoes (c : ClassNaming) (rename back : String → String) : Prop :=
  ∀ m d n : String, c.methods[Selector.mk m d]? = some n → back (rename d) = d

theorem getElem?_methods_reversed (h : c.Reversible) (hback : c.Undoes rename back)
    (name target descriptor : String) :
    (c.reversed source rename).methods[Selector.mk target descriptor]? = some name ↔
      ∃ d, c.methods[Selector.mk name d]? = some target ∧ rename d = descriptor := by
  have hinj : ∀ (a b : Selector) (x y : String), c.methods[a]? = some x →
      c.methods[b]? = some y →
      Selector.mk x (rename a.descriptor) = ⟨y, rename b.descriptor⟩ → a = b := by
    rintro ⟨m, d⟩ ⟨m', d'⟩ x y ha hb he
    obtain ⟨rfl, hd⟩ := Selector.mk.inj he
    have hdescriptor : d = d' :=
      (hback _ _ _ ha).symm.trans ((congrArg back hd).trans (hback _ _ _ hb))
    subst hdescriptor
    rw [h.methods m m' d x ha hb]
  rw [reversed, Tables.getElem?_foldl_eq_some_iff (fun method _ => method.name) hinj]
  constructor
  · rintro ⟨⟨m, d⟩, _, hm, he, rfl⟩
    cases he
    exact ⟨d, hm, rfl⟩
  · rintro ⟨d, hm, rfl⟩
    exact ⟨⟨name, d⟩, target, hm, rfl, rfl⟩

/-- What is read backwards can be read backwards again. -/
theorem Reversible.reversed (h : c.Reversible) (hback : c.Undoes rename back) :
    (c.reversed source rename).Reversible where
  fields f f' g hf hf' := by
    rw [getElem?_fields_reversed h] at hf hf'
    exact Option.some.inj (hf.symm.trans hf')
  methods m m' d n hm hm' := by
    obtain ⟨d₁, hm, hd⟩ := (getElem?_methods_reversed h hback _ _ _).mp hm
    obtain ⟨d₂, hm', hd'⟩ := (getElem?_methods_reversed h hback _ _ _).mp hm'
    have hdescriptor : d₁ = d₂ := by rw [← hback _ _ _ hm, hd, ← hd', hback _ _ _ hm']
    subst hdescriptor
    exact Option.some.inj (hm.symm.trans hm')

theorem Undoes.reversed (h : c.Reversible) (hback : c.Undoes rename back) :
    (c.reversed source rename).Undoes back rename := by
  intro target descriptor name hm
  obtain ⟨d, hsource, rfl⟩ := (getElem?_methods_reversed h hback _ _ _).mp hm
  exact congrArg rename (hback _ _ _ hsource)

theorem reversed_reversed (h : c.Reversible) (hback : c.Undoes rename back) :
    (c.reversed source rename).reversed c.target back = c := by
  have hagain : (c.reversed source rename).Reversible := h.reversed hback
  have hfields : ((c.reversed source rename).reversed c.target back).fields = c.fields := by
    refine ExtTreeMap.ext_getElem? fun f => Option.ext fun g => ?_
    rw [getElem?_fields_reversed hagain, getElem?_fields_reversed h]
  have hmethods : ((c.reversed source rename).reversed c.target back).methods = c.methods := by
    refine ExtTreeMap.ext_getElem? fun ⟨m, d⟩ => Option.ext fun n => ?_
    rw [getElem?_methods_reversed hagain (hback.reversed h)]
    constructor
    · rintro ⟨descriptor, hm, hd⟩
      obtain ⟨d', hsource, rfl⟩ := (getElem?_methods_reversed h hback _ _ _).mp hm
      rwa [← hd, hback _ _ _ hsource]
    · exact fun hm => ⟨rename d, (getElem?_methods_reversed h hback _ _ _).mpr ⟨d, hm, rfl⟩,
        hback _ _ _ hm⟩
  exact congrArg₂ (ClassNaming.mk c.target) hfields hmethods

end
end ClassNaming

/-! ## All classes -/

namespace NamingTable

/-- No two classes share a target. -/
def Distinct (t : NamingTable) : Prop :=
  ∀ cls cls' target,
    t.className? cls = some target → t.className? cls' = some target → cls = cls'

/-- No two entries of a kind lead to the same name, the names of classes fit
into descriptors, and a class name in a descriptor that is some class's target
is a class that the table names as well. -/
structure Reversible (t : NamingTable) : Prop where
  classes : t.Distinct
  fits : ∀ cls target, t.className? cls = some target → FitsDescriptor target
  fields : ∀ cls f f' g, t.field? cls f = some g → t.field? cls f' = some g → f = f'
  methods : ∀ cls m m' d n,
    t.method? cls ⟨m, d⟩ = some n → t.method? cls ⟨m', d⟩ = some n → m = m'
  mentions : ∀ cls m n, t.method? cls m = some n → ∀ name ∈ Descriptor.names m.descriptor,
    (∃ cls', t.className? cls' = some name) → (t.className? name).isSome

section

variable {t : NamingTable}

theorem className?_eq_some_iff {cls target : String} :
    t.className? cls = some target ↔
      ∃ c, t.classes[cls]? = some c ∧ c.target = target :=
  Option.map_eq_some_iff

theorem field?_eq_some_iff {cls f g : String} :
    t.field? cls f = some g ↔ ∃ c, t.classes[cls]? = some c ∧ c.fields[f]? = some g :=
  Option.bind_eq_some_iff

theorem method?_eq_some_iff {cls n : String} {m : Selector} :
    t.method? cls m = some n ↔ ∃ c, t.classes[cls]? = some c ∧ c.methods[m]? = some n :=
  Option.bind_eq_some_iff

theorem update_of_none {cls : String} (h : t.classes[cls]? = none)
    (f : ClassNaming → ClassNaming) :
    t.update cls f = ⟨t.classes.insert cls (f .empty)⟩ := by
  refine congrArg mk (ExtTreeMap.ext_getElem? fun k => ?_)
  rw [ExtTreeMap.getElem?_alter, ExtTreeMap.getElem?_insert, h]
  rfl

theorem addClass_update {cls : String} (h : t.classes[cls]? = none) (target : String)
    (f : ClassNaming → ClassNaming) :
    (t.addClass cls target).update cls f =
      ⟨t.classes.insert cls (f { ClassNaming.empty with target })⟩ := by
  rw [addClass, update_of_none h]
  refine congrArg mk (ExtTreeMap.ext_getElem? fun k => ?_)
  rw [ExtTreeMap.getElem?_alter, ExtTreeMap.getElem?_insert_self, ExtTreeMap.getElem?_insert,
    ExtTreeMap.getElem?_insert]
  by_cases hk : compare cls k = .eq
  · rw [if_pos hk, if_pos hk]
    rfl
  · rw [if_neg hk, if_neg hk, if_neg hk]

/-- Classes that lead to names of their own are reversed one by one. -/
theorem foldl_addReversed (rename : String → String) {l : List (String × ClassNaming)}
    (hl : l.Pairwise fun e e' => e.2.target ≠ e'.2.target) {r : NamingTable}
    (hr : ∀ e ∈ l, r.classes[e.2.target]? = none) :
    l.foldl (fun r e => (r.addClass e.2.target e.1).update e.2.target
        (·.addReversed e.2 rename)) r =
      ⟨l.foldl (fun u e => u.insert e.2.target (e.2.reversed e.1 rename)) r.classes⟩ := by
  induction l generalizing r with
  | nil => rfl
  | cons e l ih =>
    obtain ⟨he, hl⟩ := List.pairwise_cons.mp hl
    rw [List.foldl_cons, List.foldl_cons, addClass_update (hr e List.mem_cons_self),
      ClassNaming.addReversed_eq, ih hl]
    intro e' he'
    rw [ExtTreeMap.getElem?_insert, if_neg (he e' he' ∘ Std.compare_eq_iff_eq.mp)]
    exact hr e' (List.mem_cons_of_mem e he')

theorem getElem?_classes_reversed (h : t.Distinct) (target : String) (c : ClassNaming) :
    t.reversed.classes[target]? = some c ↔
      ∃ (cls : String) (d : ClassNaming), t.classes[cls]? = some d ∧ d.target = target ∧
        d.reversed cls (Descriptor.rename t.className?) = c := by
  have hinj : ∀ (a b : String) (x y : ClassNaming), t.classes[a]? = some x →
      t.classes[b]? = some y → x.target = y.target → a = b := by
    intro a b x y ha hb he
    exact h a b y.target (className?_eq_some_iff.mpr ⟨x, ha, he⟩)
      (className?_eq_some_iff.mpr ⟨y, hb, rfl⟩)
  have hpairwise : t.classes.toList.Pairwise fun e e' => e.2.target ≠ e'.2.target := by
    refine ExtTreeMap.distinct_keys_toList.imp_of_mem fun {e e'} he he' hne htarget => hne ?_
    exact Std.compare_eq_iff_eq.mpr (hinj e.1 e'.1 e.2 e'.2
      (ExtTreeMap.mem_toList_iff_getElem?_eq_some.mp he)
      (ExtTreeMap.mem_toList_iff_getElem?_eq_some.mp he') htarget)
  have hreversed : t.reversed.classes =
      t.classes.foldl (fun u cls c =>
        u.insert c.target (c.reversed cls (Descriptor.rename t.className?))) ∅ := by
    have hfold := foldl_addReversed (r := empty) (Descriptor.rename t.className?) hpairwise
      fun _ _ => ExtTreeMap.getElem?_empty
    rw [reversed, ExtTreeMap.foldl_eq_foldl_toList, ExtTreeMap.foldl_eq_foldl_toList, hfold]
    rfl
  rw [hreversed, Tables.getElem?_foldl_eq_some_iff _ hinj]

theorem className?_reversed (h : t.Distinct) (cls target : String) :
    t.reversed.className? target = some cls ↔ t.className? cls = some target := by
  rw [className?_eq_some_iff, className?_eq_some_iff]
  constructor
  · rintro ⟨_, hc, rfl⟩
    obtain ⟨cls, d, hd, htarget, rfl⟩ := (getElem?_classes_reversed h target _).mp hc
    exact ⟨d, hd, htarget⟩
  · rintro ⟨d, hd, htarget⟩
    exact ⟨_, (getElem?_classes_reversed h target _).mpr ⟨cls, d, hd, htarget, rfl⟩, rfl⟩

/-- Each class by itself can be read backwards. -/
theorem Reversible.of_class (h : t.Reversible) {cls : String} {c : ClassNaming}
    (hc : t.classes[cls]? = some c) : c.Reversible where
  fields f f' g hf hf' :=
    h.fields cls f f' g (field?_eq_some_iff.mpr ⟨c, hc, hf⟩) (field?_eq_some_iff.mpr ⟨c, hc, hf'⟩)
  methods m m' d n hm hm' :=
    h.methods cls m m' d n (method?_eq_some_iff.mpr ⟨c, hc, hm⟩)
      (method?_eq_some_iff.mpr ⟨c, hc, hm'⟩)

/-- The reversed table gives back the descriptors that it was made from. -/
theorem Reversible.rename_back (h : t.Reversible) {cls : String} {m : Selector} {n : String}
    (hm : t.method? cls m = some n) :
    Descriptor.rename t.reversed.className? (Descriptor.rename t.className? m.descriptor) =
      m.descriptor := by
  have hfits : ∀ name ∈ Descriptor.names m.descriptor,
      FitsDescriptor ((t.className? name).getD name) := fun name hname => by
    cases hrenamed : t.className? name with
    | none => exact Descriptor.fits_of_mem_names hname
    | some target => exact h.fits name target hrenamed
  rw [Descriptor.rename_rename hfits]
  refine Descriptor.rename_eq_self fun name hname => ?_
  rw [Descriptor.andThen, Option.getD_or]
  cases hrenamed : t.className? name with
  | some target =>
    rw [Option.getD_some, (className?_reversed h.classes name target).mpr hrenamed,
      Option.getD_some]
  | none =>
    have hno : t.reversed.className? name = none := by
      refine Option.eq_none_iff_forall_ne_some.mpr fun cls' hcls' => ?_
      have htarget := h.mentions cls m n hm name hname
        ⟨cls', (className?_reversed h.classes cls' name).mp hcls'⟩
      rw [hrenamed] at htarget
      cases htarget
    rw [Option.getD_none, hno, Option.getD_none]

/-- What a class comes to, and how to get back from there. -/
theorem Reversible.undoes (h : t.Reversible) {cls : String} {c : ClassNaming}
    (hc : t.classes[cls]? = some c) :
    c.Undoes (Descriptor.rename t.className?) (Descriptor.rename t.reversed.className?) :=
  fun m d n hm => h.rename_back (m := ⟨m, d⟩) (n := n) (method?_eq_some_iff.mpr ⟨c, hc, hm⟩)

theorem distinct_reversed (h : t.Distinct) : t.reversed.Distinct := by
  intro target target' cls htarget htarget'
  rw [className?_reversed h] at htarget htarget'
  exact Option.some.inj (htarget.symm.trans htarget')

theorem getElem?_classes_reversed_reversed (h : t.Reversible) (cls : String)
    (c : ClassNaming) :
    t.reversed.reversed.classes[cls]? = some c ↔ t.classes[cls]? = some c := by
  rw [getElem?_classes_reversed (distinct_reversed h.classes)]
  constructor
  · rintro ⟨target, c', hc', hcls, hc⟩
    obtain ⟨cls', d, hd, rfl, rfl⟩ := (getElem?_classes_reversed h.classes target c').mp hc'
    rw [ClassNaming.reversed_reversed (h.of_class hd) (h.undoes hd)] at hc
    subst hc hcls
    exact hd
  · intro hc
    exact ⟨c.target, _, (getElem?_classes_reversed h.classes _ _).mpr ⟨cls, c, hc, rfl, rfl⟩,
      rfl, ClassNaming.reversed_reversed (h.of_class hc) (h.undoes hc)⟩

/-- What has to be looked through to know that a table can be read backwards. -/
theorem reversible_of_entries
    (hclasses : ∀ e ∈ t.classes.toList, ∀ e' ∈ t.classes.toList,
      e.2.target = e'.2.target → e.1 = e'.1)
    (hfits : ∀ e ∈ t.classes.toList, FitsDescriptor e.2.target)
    (hfields : ∀ e ∈ t.classes.toList, ∀ f ∈ e.2.fields.toList, ∀ f' ∈ e.2.fields.toList,
      f.2 = f'.2 → f.1 = f'.1)
    (hmethods : ∀ e ∈ t.classes.toList, ∀ m ∈ e.2.methods.toList, ∀ m' ∈ e.2.methods.toList,
      m.1.descriptor = m'.1.descriptor → m.2 = m'.2 → m.1.name = m'.1.name)
    (hmentions : ∀ e ∈ t.classes.toList, ∀ m ∈ e.2.methods.toList,
      ∀ name ∈ Descriptor.names m.1.descriptor, ∀ e' ∈ t.classes.toList,
        e'.2.target = name → (t.className? name).isSome) :
    t.Reversible := by
  simp only [Prod.forall, ExtTreeMap.mem_toList_iff_getElem?_eq_some] at *
  refine ⟨?_, ?_, ?_, ?_, ?_⟩
  · intro cls cls' target hcls hcls'
    obtain ⟨c, hc, rfl⟩ := className?_eq_some_iff.mp hcls
    obtain ⟨c', hc', htarget⟩ := className?_eq_some_iff.mp hcls'
    exact hclasses cls c hc cls' c' hc' htarget.symm
  · intro cls target hcls
    obtain ⟨c, hc, rfl⟩ := className?_eq_some_iff.mp hcls
    exact hfits cls c hc
  · intro cls f f' g hf hf'
    obtain ⟨c, hc, hf⟩ := field?_eq_some_iff.mp hf
    obtain ⟨c', hc', hf'⟩ := field?_eq_some_iff.mp hf'
    cases Option.some.inj (hc.symm.trans hc')
    exact hfields cls c hc f g hf f' g hf' rfl
  · intro cls m m' d n hm hm'
    obtain ⟨c, hc, hm⟩ := method?_eq_some_iff.mp hm
    obtain ⟨c', hc', hm'⟩ := method?_eq_some_iff.mp hm'
    cases Option.some.inj (hc.symm.trans hc')
    exact hmethods cls c hc ⟨m, d⟩ n hm ⟨m', d⟩ n hm' rfl rfl
  · rintro cls m n hm name hname ⟨cls', hcls'⟩
    obtain ⟨c, hc, hm⟩ := method?_eq_some_iff.mp hm
    obtain ⟨c', hc', htarget⟩ := className?_eq_some_iff.mp hcls'
    exact hmentions cls c hc m n hm name hname cls' c' hc' htarget

/-- Reversing twice gives the table back, and the reversed table leads from
every name that the table leads to back to where it came from. -/
theorem reversal_keeps_lookups (t : NamingTable) (h : t.Reversible) :
    t.reversed.reversed = t ∧
      ∀ cls target, t.className? cls = some target →
        t.reversed.className? target = some cls ∧
        (∀ f g, t.field? cls f = some g → t.reversed.field? target g = some f) ∧
        ∀ m d n, t.method? cls ⟨m, d⟩ = some n →
          t.reversed.method? target ⟨n, Descriptor.rename t.className? d⟩ = some m := by
  have hclasses : t.reversed.reversed.classes = t.classes :=
    ExtTreeMap.ext_getElem? fun cls =>
      Option.ext fun c => getElem?_classes_reversed_reversed h cls c
  refine ⟨congrArg mk hclasses, fun cls target hcls => ?_⟩
  obtain ⟨c, hc, rfl⟩ := className?_eq_some_iff.mp hcls
  have hreversed : t.reversed.classes[c.target]? =
      some (c.reversed cls (Descriptor.rename t.className?)) :=
    (getElem?_classes_reversed h.classes _ _).mpr ⟨cls, c, hc, rfl, rfl⟩
  refine ⟨(className?_reversed h.classes cls c.target).mpr hcls, fun f g hf => ?_,
    fun m d n hm => ?_⟩
  · obtain ⟨d, hd, hfield⟩ := field?_eq_some_iff.mp hf
    cases Option.some.inj (hc.symm.trans hd)
    exact field?_eq_some_iff.mpr ⟨_, hreversed,
      (ClassNaming.getElem?_fields_reversed (h.of_class hc) f g).mpr hfield⟩
  · obtain ⟨c', hc', hmethod⟩ := method?_eq_some_iff.mp hm
    cases Option.some.inj (hc.symm.trans hc')
    exact method?_eq_some_iff.mpr ⟨_, hreversed,
      (ClassNaming.getElem?_methods_reversed (h.of_class hc) (h.undoes hc) m n _).mpr
        ⟨d, hmethod, rfl⟩⟩

/-! ## A table of a class that its own methods mention -/

namespace Sample

/-- A class and its fields and methods, under short names. -/
def colours : NamingTable :=
  ⟨(∅ : ExtTreeMap String ClassNaming).insert "net/Color"
    { target := "a"
      fields := (∅ : ExtTreeMap String String).insert "RED" "b" |>.insert "$VALUES" "c"
      methods := (∅ : ExtTreeMap Selector String).insert ⟨"values", "()[Lnet/Color;"⟩ "d"
        |>.insert ⟨"valueOf", "(Ljava/lang/String;)Lnet/Color;"⟩ "e" }⟩

end Sample

theorem reversible_colours : Sample.colours.Reversible := by
  refine reversible_of_entries ?_ ?_ ?_ ?_ ?_ <;> decide +kernel

theorem reversal_keeps_lookups_colours :
    Sample.colours.Reversible ∧
      Sample.colours.reversed.reversed = Sample.colours ∧
      Sample.colours.reversed.className? "a" = some "net/Color" ∧
      Sample.colours.reversed.field? "a" "b" = some "RED" ∧
      Sample.colours.reversed.method? "a" ⟨"d", "()[La;"⟩ = some "values" := by
  obtain ⟨htwice, hlookups⟩ := reversal_keeps_lookups Sample.colours reversible_colours
  obtain ⟨hclass, hfields, hmethods⟩ := hlookups "net/Color" "a" (by decide +kernel)
  have hdescriptor : Descriptor.rename Sample.colours.className? "()[Lnet/Color;" = "()[La;" := by
    decide +kernel
  refine ⟨reversible_colours, htwice, hclass, hfields "RED" "b" (by decide +kernel), ?_⟩
  rw [← hdescriptor]
  exact hmethods "values" "()[Lnet/Color;" "d" (by decide +kernel)

end
end NamingTable
end Lineage
