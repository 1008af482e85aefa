import Std.Data.DTreeMap.Internal.Lemmas
import Lineage.Proofs.Graph.Search
import Lineage.Hierarchy.Viewpoint

/-!
What a change to a hierarchy leaves alone.

A bare node has nothing that resolution finds out, only what its class file
says.  Two hierarchies are alike if their classes are the same when bare; they
then have the same supertype relation, and whatever depends on no more than
that.  `SameBut` is finer: the hierarchies differ in nothing but those parts of
methods that a view does not show.
-/

namespace Lineage

open Std (ExtTreeMap)
open Relation (ReflTransGen TransGen)

section Tables

variable {κ α β : Type} [Ord κ] [Std.TransOrd κ]

theorem values_eq_map_toList (t : ExtTreeMap κ α) : t.values = t.toList.map Prod.snd := by
  obtain ⟨⟨q⟩⟩ := t
  induction q using Quotient.ind with
  | _ a =>
    show a.inner.values = (Std.DTreeMap.Internal.Impl.Const.toList a.inner).map Prod.snd
    rw [Std.DTreeMap.Internal.Impl.values_eq_map_snd,
      Std.DTreeMap.Internal.Impl.Const.toList_eq_toListModel_map]
    simp

variable [Std.LawfulEqOrd κ]

theorem mem_values_iff {t : ExtTreeMap κ α} {a : α} : a ∈ t.values ↔ ∃ k : κ, t[k]? = some a := by
  rw [values_eq_map_toList, List.mem_map]
  constructor
  · rintro ⟨⟨k, a⟩, hk, rfl⟩
    exact ⟨k, ExtTreeMap.mem_toList_iff_getElem?_eq_some.mp hk⟩
  · rintro ⟨k, hk⟩
    exact ⟨(k, a), ExtTreeMap.mem_toList_iff_getElem?_eq_some.mpr hk, rfl⟩

theorem map_map_of_eq (t : ExtTreeMap κ α) {f : κ → α → α} {g : α → β}
    (hg : ∀ k a, g (f k a) = g a) : ((t.map f).map fun _ => g) = t.map fun _ => g := by
  refine ExtTreeMap.ext_getElem? fun k => ?_
  simp only [ExtTreeMap.getElem?_map, Option.map_map]
  exact congrArg (fun e => t[k]?.map e) (funext (hg k))

end Tables

namespace FieldNode

def bare (f : FieldNode) : FieldNode := { f with forcedName := none }

end FieldNode

namespace MethodNode

/-- All that a bare method says of its bouncing is that it is a bouncer. -/
def bare (m : MethodNode) : MethodNode :=
  { m with
    bounce := m.bounce.map fun _ => { target := m.ref, landing := none }
    forcedName := none
    pinned := false
    overrides := ∅
    forwarders := ∅
    parent := none }

theorem isOverridable_eq {m n : MethodNode} (h : m.bare = n.bare) :
    m.isOverridable = n.isOverridable := by
  show m.bare.isOverridable = n.bare.isOverridable
  rw [h]

theorem isInheritable_eq {m n : MethodNode} (h : m.bare = n.bare) :
    m.isInheritable = n.isInheritable := by
  show m.bare.isInheritable = n.bare.isInheritable
  rw [h]

theorem ref_eq {m n : MethodNode} (h : m.bare = n.bare) : m.ref = n.ref := by
  show m.bare.ref = n.bare.ref
  rw [h]

end MethodNode

namespace ClassNode

/-- The class without its methods. -/
def header (c : ClassNode) : ClassNode := { c with methods := ∅ }

def bare (c : ClassNode) : ClassNode :=
  { c with
    fields := c.fields.map fun _ => FieldNode.bare
    methods := c.methods.map fun _ => MethodNode.bare
    resolved := false
    components := c.components.map fun component => { component with accessor := none } }

@[simp]
theorem method?_bare (c : ClassNode) (key : String) :
    c.bare.method? key = (c.method? key).map MethodNode.bare := by
  simp [bare, method?, ExtTreeMap.getElem?_map]

theorem name_eq {c d : ClassNode} (h : c.bare = d.bare) : c.name = d.name := by
  show c.bare.name = d.bare.name
  rw [h]

@[grind =]
theorem method?_modifyMethod (c : ClassNode) (key other : String) (f : MethodNode → MethodNode) :
    (c.modifyMethod key f).method? other =
      if key = other then (c.method? other).map f else c.method? other := by
  by_cases hk : key = other <;> simp [modifyMethod, method?, ExtTreeMap.getElem?_modify, hk]

end ClassNode

namespace Hierarchy

theorem method?_eq_some {h : Hierarchy} {r : MemberRef} {m : MethodNode} :
    h.method? r = some m ↔ ∃ c, h.class? r.owner = some c ∧ c.method? r.key = some m := by
  simp only [method?, Option.bind_eq_bind, Option.bind_eq_some_iff]

/-- What a change to one class does not touch is as it was in all classes. -/
theorem map_class?_modifyClass {β : Type} {view : ClassNode → β} (h : Hierarchy) (name : String)
    {f : ClassNode → ClassNode} (hf : ∀ c, view (f c) = view c) (other : String) :
    ((h.modifyClass name f).class? other).map view = (h.class? other).map view := by
  rw [class?_modifyClass]
  split
  · rw [Option.map_map]
    exact congrArg (fun g => (h.class? other).map g) (funext hf)
  · rfl

/-- A class that is there after a change was there before, and has been changed if
it goes by the name. -/
theorem exists_of_modifyClass {h : Hierarchy} {name other : String} {f : ClassNode → ClassNode}
    {c' : ClassNode} (hc' : (h.modifyClass name f).class? other = some c') :
    ∃ c, h.class? other = some c ∧ (name = other ∧ c' = f c ∨ name ≠ other ∧ c' = c) := by
  rw [class?_modifyClass] at hc'
  split at hc'
  · next hn =>
    obtain ⟨c, hc, rfl⟩ := Option.map_eq_some_iff.mp hc'
    exact ⟨c, hc, Or.inl ⟨hn, rfl⟩⟩
  · next hn => exact ⟨c', hc', Or.inr ⟨hn, rfl⟩⟩

/-- References with one owner and one key lead to the same method. -/
theorem method?_congr (h : Hierarchy) {r s : MemberRef} (ho : r.owner = s.owner)
    (hk : r.key = s.key) : h.method? r = h.method? s := by
  rw [method?, method?, ho, hk]

@[grind =]
theorem method?_modifyMethod (h : Hierarchy) (r s : MemberRef) (f : MethodNode → MethodNode) :
    (h.modifyMethod r f).method? s =
      if r.owner = s.owner ∧ r.key = s.key then (h.method? s).map f else h.method? s := by
  simp only [method?, modifyMethod, class?_modifyClass, Option.bind_eq_bind]
  by_cases ho : r.owner = s.owner
  · rw [if_pos ho]
    cases hc : h.class? s.owner with
    | none => simp
    | some c =>
      simp only [Option.map_some, Option.bind_some, ClassNode.method?_modifyMethod, ho, true_and]
  · simp [ho]

@[simp]
theorem method?_modifyMethod_self (h : Hierarchy) (r : MemberRef) (f : MethodNode → MethodNode) :
    (h.modifyMethod r f).method? r = (h.method? r).map f := by
  rw [method?_modifyMethod, if_pos ⟨rfl, rfl⟩]

/-- A method that is there after a change was there before, and has been changed
if the reference leads to it. -/
theorem exists_of_modifyMethod {h : Hierarchy} {r s : MemberRef} {f : MethodNode → MethodNode}
    {m' : MethodNode} (hm' : (h.modifyMethod r f).method? s = some m') :
    ∃ m, h.method? s = some m ∧
      ((r.owner = s.owner ∧ r.key = s.key) ∧ m' = f m ∨
        ¬ (r.owner = s.owner ∧ r.key = s.key) ∧ m' = m) := by
  cases hm : h.method? s <;> grind

/-! ## Hierarchies that say the same of their classes -/

/-- The same classes, apart from what resolution finds out about them. -/
def Alike (h h' : Hierarchy) : Prop :=
  ∀ name, (h.class? name).map ClassNode.bare = (h'.class? name).map ClassNode.bare

namespace Alike

variable {h h' h'' : Hierarchy}

theorem refl (h : Hierarchy) : Alike h h := fun _ => rfl

theorem symm (hh : Alike h h') : Alike h' h := fun name => (hh name).symm

theorem trans (hh : Alike h h') (hh' : Alike h' h'') : Alike h h'' :=
  fun name => (hh name).trans (hh' name)

theorem exists_class (hh : Alike h h') {name : String} {c : ClassNode}
    (hc : h.class? name = some c) : ∃ c', h'.class? name = some c' ∧ c.bare = c'.bare := by
  have hn := hh name
  rw [hc, Option.map_some] at hn
  obtain ⟨c', hc', hb⟩ := Option.map_eq_some_iff.mp hn.symm
  exact ⟨c', hc', hb.symm⟩

theorem isSome_class? (hh : Alike h h') (name : String) :
    (h.class? name).isSome = (h'.class? name).isSome := by
  rw [← Option.isSome_map (f := ClassNode.bare), hh name, Option.isSome_map]

theorem exists_method (hh : Alike h h') {r : MemberRef} {m : MethodNode}
    (hm : h.method? r = some m) : ∃ m', h'.method? r = some m' ∧ m.bare = m'.bare := by
  obtain ⟨c, hc, hcm⟩ := method?_eq_some.mp hm
  obtain ⟨c', hc', hb⟩ := hh.exists_class hc
  have hk : (c'.method? r.key).map MethodNode.bare = some m.bare := by
    rw [← ClassNode.method?_bare, ← hb, ClassNode.method?_bare, hcm, Option.map_some]
  obtain ⟨m', hm', hbm⟩ := Option.map_eq_some_iff.mp hk
  exact ⟨m', method?_eq_some.mpr ⟨c', hc', hm'⟩, hbm.symm⟩

theorem isSome_method? (hh : Alike h h') (r : MemberRef) :
    (h.method? r).isSome = (h'.method? r).isSome := by
  rw [Bool.eq_iff_iff, Option.isSome_iff_exists, Option.isSome_iff_exists]
  constructor
  · rintro ⟨m, hm⟩
    obtain ⟨m', hm', _⟩ := hh.exists_method hm
    exact ⟨m', hm'⟩
  · rintro ⟨m', hm'⟩
    obtain ⟨m, hm, _⟩ := hh.symm.exists_method hm'
    exact ⟨m, hm⟩

theorem supertypes? (hh : Alike h h') (name : String) :
    h.supertypes? name = h'.supertypes? name := by
  have hn := congrArg (Option.map ClassNode.supertypes) (hh name)
  rw [Option.map_map, Option.map_map] at hn
  exact hn

theorem supertypeGraph (hh : Alike h h') : h.supertypeGraph = h'.supertypeGraph := by
  simp only [Hierarchy.supertypeGraph, Graph.mk.injEq]
  exact funext hh.supertypes?

theorem lineage (hh : Alike h h') : h.lineage = h'.lineage := by
  funext name
  rw [Hierarchy.lineage, Hierarchy.lineage, hh.supertypeGraph]

theorem ancestors (hh : Alike h h') : h.ancestors = h'.ancestors := by
  funext name
  simp only [Hierarchy.ancestors, hh.lineage, hh.isSome_class?]

end Alike

theorem alike_modifyClass (h : Hierarchy) (name : String) {f : ClassNode → ClassNode}
    (hf : ∀ c, (f c).bare = c.bare) : Alike h (h.modifyClass name f) :=
  fun other => (map_class?_modifyClass h name hf other).symm

/-! ## Hierarchies that differ in parts of methods -/

/-- The same classes, and the same methods as far as `view` shows them. -/
def SameBut {β : Type} (view : MethodNode → β) (h h' : Hierarchy) : Prop :=
  ∀ name, (h.class? name).map (fun c => (c.header, c.methods.map fun _ => view)) =
    (h'.class? name).map fun c => (c.header, c.methods.map fun _ => view)

namespace SameBut

variable {β γ : Type} {view : MethodNode → β} {h h' h'' : Hierarchy}

theorem refl (h : Hierarchy) : SameBut view h h := fun _ => rfl

theorem symm (hh : SameBut view h h') : SameBut view h' h := fun name => (hh name).symm

theorem trans (hh : SameBut view h h') (hh' : SameBut view h' h'') : SameBut view h h'' :=
  fun name => (hh name).trans (hh' name)

/-- What can be told from a view is kept along with it. -/
theorem map (hh : SameBut view h h') (f : β → γ) : SameBut (f ∘ view) h h' := by
  intro name
  have hn := congrArg (Option.map fun p => (p.1, p.2.map fun (_ : String) => f)) (hh name)
  have hc : ∀ c : ClassNode, ((c.methods.map fun (_ : String) => view).map fun _ => f) =
      c.methods.map fun _ => f ∘ view := by
    intro c
    refine ExtTreeMap.ext_getElem? fun key => ?_
    simp [ExtTreeMap.getElem?_map, Function.comp_def]
  simpa only [Option.map_map, Function.comp_def, hc] using hn

theorem exists_class (hh : SameBut view h h') {name : String} {c : ClassNode}
    (hc : h.class? name = some c) : ∃ c', h'.class? name = some c' ∧ c'.header = c.header := by
  have hn := hh name
  rw [hc, Option.map_some] at hn
  obtain ⟨c', hc', hb⟩ := Option.map_eq_some_iff.mp hn.symm
  exact ⟨c', hc', congrArg Prod.fst hb⟩

theorem method? (hh : SameBut view h h') (r : MemberRef) :
    (h.method? r).map view = (h'.method? r).map view := by
  have hn := congrArg (fun o => o.bind fun p => (p.2[r.key]? : Option β)) (hh r.owner)
  simpa [Hierarchy.method?, ClassNode.method?, Option.bind_map, Function.comp_def,
    ExtTreeMap.getElem?_map, Option.map_bind] using hn

theorem exists_method (hh : SameBut view h h') {r : MemberRef} {m : MethodNode}
    (hm : h.method? r = some m) : ∃ m', h'.method? r = some m' ∧ view m' = view m := by
  have hr := hh.method? r
  rw [hm, Option.map_some] at hr
  exact Option.map_eq_some_iff.mp hr.symm

theorem alike (hh : SameBut MethodNode.bare h h') : Alike h h' := by
  intro name
  have hn := congrArg (Option.map fun p => { p.1.bare with methods := p.2 }) (hh name)
  rw [Option.map_map, Option.map_map] at hn
  exact hn

end SameBut

theorem sameBut_modifyMethod {β : Type} {view : MethodNode → β} (h : Hierarchy) (r : MemberRef)
    {f : MethodNode → MethodNode} (hf : ∀ m, view (f m) = view m) :
    SameBut view h (h.modifyMethod r f) := by
  intro name
  rw [modifyMethod, class?_modifyClass]
  by_cases hn : r.owner = name
  · rw [if_pos hn]
    cases h.class? name with
    | none => rfl
    | some c =>
      simp only [Option.map_some, Option.some.injEq, Prod.mk.injEq]
      refine ⟨rfl, ExtTreeMap.ext_getElem? fun key => ?_⟩
      have hm := c.method?_modifyMethod r.key key f
      simp only [ClassNode.method?] at hm
      simp only [ExtTreeMap.getElem?_map, hm]
      by_cases hk : r.key = key
      · rw [if_pos hk, Option.map_map]
        exact congrArg (fun g => c.methods[key]?.map g) (funext fun m => (hf m).symm)
      · rw [if_neg hk]
  · rw [if_neg hn]

/-! ## Keys -/

/-- Of the methods of a class that have one key, only one has a given name. -/
theorem eq_of_key {r s : MemberRef} (ho : r.owner = s.owner) (hname : r.name = s.name)
    (hkey : r.key = s.key) : r = s := by
  cases r
  cases s
  simp only [MemberRef.key] at ho hname hkey
  subst ho hname
  rw [String.append_right_inj] at hkey
  rw [hkey]

/-- Classes and methods are found under their own names. -/
structure Keyed (h : Hierarchy) : Prop where
  name_eq : ∀ {name c}, h.class? name = some c → c.name = name
  slot_eq : ∀ {r m}, h.method? r = some m → m.owner = r.owner ∧ m.key = r.key

theorem Keyed.of_alike {h h' : Hierarchy} (hk : Keyed h) (hh : Alike h h') : Keyed h' where
  name_eq {name c} hc := by
    obtain ⟨d, hd, hb⟩ := hh.symm.exists_class hc
    rw [ClassNode.name_eq hb, hk.name_eq hd]
  slot_eq {r m} hm := by
    obtain ⟨n, hn, hb⟩ := hh.symm.exists_method hm
    have hr : m.ref = n.ref := MethodNode.ref_eq hb
    have ho : m.owner = n.owner := congrArg MemberRef.owner hr
    have hkey : m.key = n.key := congrArg MemberRef.key hr
    rw [ho, hkey]
    exact hk.slot_eq hn

/-- A method's own reference leads to it. -/
theorem Keyed.method?_ref {h : Hierarchy} (hk : Keyed h) {r : MemberRef} {m : MethodNode}
    (hm : h.method? r = some m) : h.method? m.ref = some m := by
  obtain ⟨ho, hkey⟩ := hk.slot_eq hm
  have hkey : m.ref.key = r.key := hkey
  obtain ⟨c, hc, hcm⟩ := method?_eq_some.mp hm
  refine method?_eq_some.mpr ⟨c, ?_, ?_⟩
  · rw [← hc]
    exact congrArg h.class? ho
  · rw [hkey]
    exact hcm

/-- Every method of a class says that it is one. -/
theorem Keyed.of_mem_class {h : Hierarchy} (hk : Keyed h) {name key : String} {c : ClassNode}
    {m : MethodNode} (hc : h.class? name = some c) (hm : c.method? key = some m) :
    m.owner = name ∧ m.key = key ∧ h.method? m.ref = some m := by
  have hkey : (⟨name, key, ""⟩ : MemberRef).key = key := by simp [MemberRef.key]
  have hslot : h.method? ⟨name, key, ""⟩ = some m := by
    refine method?_eq_some.mpr ⟨c, hc, ?_⟩
    rw [hkey]
    exact hm
  obtain ⟨ho, hk'⟩ := hk.slot_eq hslot
  exact ⟨ho, hk'.trans hkey, hk.method?_ref hslot⟩

end Hierarchy
end Lineage
