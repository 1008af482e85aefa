import Lineage.Proofs.Metadata.Shape
import Lineage.Proofs.Resolution.Evaluation
import Lineage.Proofs.Resolution.Forwarding
import Lineage.Proofs.Resolution.Unification

/-!
The names that are forced on methods and fields.

Two passes force names.  Members that the platform finds by name in an enum class
get their official names, methods for good.  Where an interface is unified methods
with one key get the name of one of them.  Every step of a run keeps the names that
have been forced for good, and no other step forces any.  So the name that is
forced on a method is its own, unless two names of overridable methods have a key
in common.
-/

namespace Lineage

open Std (ExtTreeMap ExtTreeSet)

namespace MethodNode

/-- What the class file says of a method, and which name is forced on it. -/
def naming (m : MethodNode) : MethodNode :=
  { m.bare with forcedName := m.forcedName, pinned := m.pinned }

theorem bare_naming (m : MethodNode) : m.naming.bare = m.bare := by
  cases hb : m.bounce <;> simp [naming, bare, hb, ref]

theorem bare_eq_of_naming {m n : MethodNode} (h : m.naming = n.naming) : m.bare = n.bare := by
  rw [← bare_naming m, h, bare_naming]

theorem forcedName_eq_of_naming {m n : MethodNode} (h : m.naming = n.naming) :
    m.forcedName = n.forcedName := by
  show m.naming.forcedName = n.naming.forcedName
  rw [h]

theorem pinned_eq_of_naming {m n : MethodNode} (h : m.naming = n.naming) :
    m.pinned = n.pinned := by
  show m.naming.pinned = n.naming.pinned
  rw [h]

theorem naming_sansBounce (m : MethodNode) : m.sansBounce.naming = m.naming := by
  cases hb : m.bounce <;> simp [sansBounce, naming, bare, hb, ref]

end MethodNode

namespace ClassNode

/-- No name is forced on the members of a class that has just been read. -/
theorem unforced_of_ofBytes? {name : String} {bytes : Bytes} {isLocal : Bool} {c : ClassNode}
    (hc : ofBytes? name bytes isLocal = some c) :
    (∀ key m, c.method? key = some m → m.forcedName = none ∧ m.pinned = false) ∧
      ∀ (field : String) f, c.fields[field]? = some f → f.forcedName = none := by
  obtain ⟨s, _, _, rfl⟩ := ofBytes?_eq_some hc
  refine ⟨fun key m hm => ?_, fun field f hf => ?_⟩
  · obtain ⟨_, declared, _, rfl⟩ := method?_ofSummary hm
    exact ⟨rfl, rfl⟩
  · rw [getElem?_fields_ofSummary] at hf
    obtain ⟨declared, _, rfl⟩ := Option.map_eq_some_iff.mp hf
    rfl

end ClassNode

namespace Resolution

open Hierarchy (Alike Keyed SameBut)

/-! ## Later class paths -/

/-- `p'` is `p` later on.  What has been asked for is still there, and no name has
been released that was forced for good. -/
structure Continues (p p' : ClassPath) : Prop where
  asked : ∀ a ∈ p.asked, a ∈ p'.asked
  isEnum : ∀ a c, a ∈ p.asked → p.hierarchy.class? a = some c →
    ∃ c', p'.hierarchy.class? a = some c' ∧ c'.isEnum = c.isEnum
  methods : ∀ r m, r.owner ∈ p.asked → p.hierarchy.method? r = some m →
    ∃ m', p'.hierarchy.method? r = some m' ∧ m'.bare = m.bare ∧ (m.pinned → m'.pinned)

namespace Continues

variable {p p' p'' : ClassPath}

theorem refl (p : ClassPath) : Continues p p where
  asked _ ha := ha
  isEnum _ c _ hc := ⟨c, hc, rfl⟩
  methods _ m _ hm := ⟨m, hm, rfl, id⟩

theorem trans (hp : Continues p p') (hp' : Continues p' p'') : Continues p p'' where
  asked a ha := hp'.asked a (hp.asked a ha)
  isEnum a c ha hc := by
    obtain ⟨c', hc', he⟩ := hp.isEnum a c ha hc
    obtain ⟨c'', hc'', he'⟩ := hp'.isEnum a c' (hp.asked a ha) hc'
    exact ⟨c'', hc'', he'.trans he⟩
  methods r m hr hm := by
    obtain ⟨m', hm', hb, hpin⟩ := hp.methods r m hr hm
    obtain ⟨m'', hm'', hb', hpin'⟩ := hp'.methods r m' (hp.asked r.owner hr) hm'
    exact ⟨m'', hm'', hb'.trans hb, fun h => hpin' (hpin h)⟩

theorem ask (p : ClassPath) (l : List String) : Continues p (p.ask l) :=
  { refl p with asked := fun _ ha => ClassPath.mem_asked_ask.mpr (Or.inl ha) }

/-- A class that has been asked for is not read again. -/
theorem add (p : ClassPath) (name : String) (bytes : Bytes) (isPrimary : Bool) :
    Continues p (p.add name bytes isPrimary) where
  asked _ ha := ha
  isEnum a c ha hc := ⟨c, (ClassPath.class?_add_of_asked ha name bytes isPrimary).trans hc, rfl⟩
  methods r m hr hm := by
    refine ⟨m, ?_, rfl, id⟩
    rw [Hierarchy.method?, ClassPath.class?_add_of_asked hr]
    exact hm

theorem of_alike {h' : Hierarchy} (hh : Alike p.hierarchy h')
    (hpinned : ∀ r m m', p.hierarchy.method? r = some m → h'.method? r = some m' →
      m.pinned → m'.pinned) : Continues p { p with hierarchy := h' } where
  asked _ ha := ha
  isEnum a c _ hc := by
    obtain ⟨c', hc', hb⟩ := hh.exists_class hc
    exact ⟨c', hc', (congrArg ClassNode.isEnum hb).symm⟩
  methods r m _ hm := by
    obtain ⟨m', hm', hb⟩ := hh.exists_method hm
    exact ⟨m', hm', hb.symm, hpinned r m m' hm hm'⟩

end Continues

/-! ## Names of methods -/

/-- An overridable method of a class that has been asked for has the key and the
name. -/
def Bears (p : ClassPath) (key name : String) : Prop :=
  ∃ k, p.hierarchy.method? k.ref = some k ∧ k.owner ∈ p.asked ∧ k.isOverridable ∧
    k.key = key ∧ k.name = name

/-- The method is one that the platform finds by the name that `names` has for it,
and this name has been forced on it for good. -/
structure Lists (names : Names) (p : ClassPath) (m : MethodNode) (official : String) : Prop where
  pinned : m.pinned = true
  forced : m.forcedName = some official
  asked : m.owner ∈ p.asked
  isEnum : ∃ c, p.hierarchy.class? m.owner = some c ∧ c.isEnum
  listed : ⟨official, m.descriptor⟩ ∈ enumMethods m.owner
  known : names.method? m.owner ⟨m.name, m.descriptor⟩ = some official

/-- How a method may be named. -/
inductive Named (names : Names) (p : ClassPath) (m : MethodNode) : Prop
  | free (hpinned : m.pinned = false) (hforced : m.forcedName = none)
  | shared {name : String} (hpinned : m.pinned = false) (hforced : m.forcedName = some name)
    (hbears : Bears p m.key name)
  | listed {official : String} (hlists : Lists names p m official)

section Named

variable {names : Names} {p p' : ClassPath} {m m' : MethodNode}

/-- A method that is still there has the key and the name that it had. -/
theorem bears_of_bare {k k' : MethodNode} (hk' : p.hierarchy.method? k.ref = some k')
    (hbare : k'.bare = k.bare) (hasked : k.owner ∈ p.asked) (hover : k.isOverridable) :
    Bears p k.key k.name := by
  have href : k'.ref = k.ref := MethodNode.ref_eq hbare
  refine ⟨k', href ▸ hk', ?_, (MethodNode.isOverridable_eq hbare).trans hover,
    congrArg MemberRef.key href, congrArg MemberRef.name href⟩
  rw [show k'.owner = k.owner from congrArg MemberRef.owner href]
  exact hasked

theorem Bears.of_continues {key name : String} (hn : Bears p key name) (hp : Continues p p') :
    Bears p' key name := by
  obtain ⟨k, hk, hasked, hover, rfl, rfl⟩ := hn
  obtain ⟨k', hk', hbare, _⟩ := hp.methods k.ref k hasked hk
  exact bears_of_bare hk' hbare (hp.asked _ hasked) hover

theorem Lists.of_continues {official : String} (hm : Lists names p m official)
    (hp : Continues p p') : Lists names p' m official :=
  { hm with
    asked := hp.asked _ hm.asked
    isEnum := by
      obtain ⟨c, hc, he⟩ := hm.isEnum
      obtain ⟨c', hc', he'⟩ := hp.isEnum m.owner c hm.asked hc
      exact ⟨c', hc', he'.trans he⟩ }

theorem Named.of_continues (hm : Named names p m) (hp : Continues p p') : Named names p' m := by
  cases hm with
  | free hpinned hforced => exact .free hpinned hforced
  | shared hpinned hforced hbears => exact .shared hpinned hforced (hbears.of_continues hp)
  | listed hlists => exact .listed (hlists.of_continues hp)

theorem Named.of_naming (hm : Named names p m) (h : m'.naming = m.naming) : Named names p m' := by
  have href : m'.ref = m.ref := MethodNode.ref_eq (MethodNode.bare_eq_of_naming h)
  obtain ⟨howner, hname, hdescriptor⟩ := MemberRef.mk.injEq .. ▸ href
  have hforced := MethodNode.forcedName_eq_of_naming h
  have hpinned := MethodNode.pinned_eq_of_naming h
  cases hm with
  | free hp hf => exact .free (hpinned.trans hp) (hforced.trans hf)
  | shared hp hf hbears =>
    refine .shared (hpinned.trans hp) (hforced.trans hf) ?_
    rw [show m'.key = m.key from congrArg MemberRef.key href]
    exact hbears
  | listed hl =>
    refine .listed ⟨hpinned.trans hl.pinned, hforced.trans hl.forced, ?_, ?_, ?_, ?_⟩
    · exact howner ▸ hl.asked
    · exact howner ▸ hl.isEnum
    · rw [howner, hdescriptor]
      exact hl.listed
    · rw [howner, hname, hdescriptor]
      exact hl.known

theorem Named.force {name : String} (hm : Named names p m) (hbears : Bears p m.key name) :
    Named names p (m.force name) := by
  unfold MethodNode.force
  split
  · exact hm
  · next hpinned => exact .shared (by simpa using hpinned) rfl hbears

/-- Counterparts are sought in classes that have been asked for. -/
theorem bears_of_sibling {g : Hierarchy} (hk : Keyed g) (hg : Alike g p.hierarchy)
    {classes : List String} (hclasses : ∀ a ∈ classes, a ∈ p.asked) {key : String}
    (hm : m ∈ siblings g classes key) : Bears p key m.name := by
  obtain ⟨⟨a, ha, c, hc, hcm⟩, hover⟩ := mem_siblings.mp hm
  obtain ⟨howner, hkey, hself⟩ := hk.of_mem_class hc hcm
  obtain ⟨k, hk, hbare⟩ := hg.exists_method hself
  have hasked : m.owner ∈ p.asked := howner ▸ hclasses a ha
  rw [← hkey]
  exact bears_of_bare hk hbare.symm hasked hover

end Named

/-! ## Naming the members of an enum -/

section Settle

variable {names : Names} {cls : String} {h : Hierarchy} {r : MemberRef} {m m' : MethodNode}

/-- A method is left as it is, or its official name is forced on it for good. -/
theorem exists_of_nameEnums (hm' : (nameEnums names cls h).method? r = some m') :
    ∃ m, h.method? r = some m ∧ (m' = m ∨ ∃ c official, r.owner = cls ∧
      h.class? r.owner = some c ∧ c.isEnum ∧
      names.method? c.name ⟨m.name, m.descriptor⟩ = some official ∧
      ⟨official, m.descriptor⟩ ∈ enumMethods c.name ∧ m' = m.pin official) := by
  obtain ⟨c', hc', hcm'⟩ := Hierarchy.method?_eq_some.mp hm'
  obtain ⟨c, hc, ⟨howner, rfl⟩ | ⟨_, rfl⟩⟩ := Hierarchy.exists_of_modifyClass hc'
  · unfold nameEnum at hcm'
    split at hcm'
    · next henum =>
      rw [ClassNode.method?, ExtTreeMap.getElem?_map] at hcm'
      obtain ⟨m, hcm, rfl⟩ := Option.map_eq_some_iff.mp hcm'
      refine ⟨m, Hierarchy.method?_eq_some.mpr ⟨c, hc, hcm⟩, ?_⟩
      unfold nameEnumMethod
      split
      · next official hofficial =>
        split
        · next hlisted =>
          exact Or.inr ⟨c, official, howner.symm, hc, henum, hofficial, hlisted, rfl⟩
        · exact Or.inl rfl
      · exact Or.inl rfl
    · exact ⟨m', Hierarchy.method?_eq_some.mpr ⟨c, hc, hcm'⟩, Or.inl rfl⟩
  · exact ⟨m', Hierarchy.method?_eq_some.mpr ⟨_, hc, hcm'⟩, Or.inl rfl⟩

/-- No names are forced while the methods of a class are linked and bound. -/
theorem sameBut_naming_boundAt (names : Names) (cls : String) (isAbstract : Bool) (h : Hierarchy) :
    SameBut MethodNode.naming (nameEnums names cls h) (boundAt names cls isAbstract h) := by
  have hbounced := (sameBut_resolveBounces cls (nameEnums names cls h)).map MethodNode.naming
  rw [show MethodNode.naming ∘ MethodNode.sansBounce = MethodNode.naming from
    funext MethodNode.naming_sansBounce] at hbounced
  have hlinked : SameBut MethodNode.naming (nameEnums names cls h) (linkedAt names cls h) :=
    hbounced.trans ((sameBut_linkMethods cls _).map MethodNode.naming)
  unfold boundAt
  split
  · exact hlinked
  · exact hlinked.trans ((sameBut_bindContracts cls _).map MethodNode.naming)

theorem map_naming_settle (names : Names) (cls : String) (h : Hierarchy) (r : MemberRef) :
    ((settle names cls h).1.method? r).map MethodNode.naming =
      ((nameEnums names cls h).method? r).map MethodNode.naming := by
  cases hc : h.class? cls with
  | none =>
    have hsame : (nameEnums names cls h).method? r = h.method? r := by
      rw [Hierarchy.method?, nameEnums, Hierarchy.class?_modifyClass]
      split
      · next howner => rw [Hierarchy.method?, ← howner, hc, Option.map_none]
      · rfl
    rw [settle_of_none hc, hsame]
  | some c =>
    rw [settle_fst hc,
      Hierarchy.method?_modifyClass_of_methods _ _ (f := markResolved) fun _ => rfl,
      Hierarchy.method?_modifyClass_of_methods _ _ (f := nameAccessors) fun _ => rfl]
    exact ((sameBut_naming_boundAt names cls c.isAbstract h).method? r).symm

/-- What settling a class does to the name of a method. -/
theorem exists_of_settle (hm' : (settle names cls h).1.method? r = some m') :
    ∃ m, h.method? r = some m ∧ (m'.naming = m.naming ∨ ∃ c official, r.owner = cls ∧
      h.class? r.owner = some c ∧ c.isEnum ∧
      names.method? c.name ⟨m.name, m.descriptor⟩ = some official ∧
      ⟨official, m.descriptor⟩ ∈ enumMethods c.name ∧
      m'.naming = (m.pin official).naming) := by
  have hnaming := map_naming_settle names cls h r
  rw [hm', Option.map_some] at hnaming
  obtain ⟨n, hn, hview⟩ := Option.map_eq_some_iff.mp hnaming.symm
  obtain ⟨m, hm, rfl | ⟨c, official, ho, hc, he, hknown, hlisted, rfl⟩⟩ := exists_of_nameEnums hn
  · exact ⟨n, hm, Or.inl hview.symm⟩
  · exact ⟨m, hm, Or.inr ⟨c, official, ho, hc, he, hknown, hlisted, hview.symm⟩⟩

end Settle

/-! ## Names of fields -/

/-- Names are forced on the fields of enum classes only. -/
def FieldsFree (h : Hierarchy) : Prop :=
  ∀ a c, h.class? a = some c → c.isEnum = false →
    ∀ (field : String) f, c.fields[field]? = some f → f.forcedName = none

namespace FieldsFree

variable {h h' : Hierarchy}

theorem of_sameBut {β : Type} {view : MethodNode → β} (hf : FieldsFree h)
    (hh : SameBut view h h') : FieldsFree h' := by
  intro a c' hc' he field f hfield
  obtain ⟨c, hc, hheader⟩ := hh.symm.exists_class hc'
  have henum : c.header.isEnum = c'.header.isEnum := congrArg ClassNode.isEnum hheader
  have hfields : c.header.fields = c'.header.fields := congrArg ClassNode.fields hheader
  exact hf a c hc (henum.trans he) field f (hfields ▸ hfield)

theorem modifyClass (hf : FieldsFree h) (name : String) {g : ClassNode → ClassNode}
    (hg : ∀ c, (g c).isEnum = c.isEnum ∧ (c.isEnum = false → (g c).fields = c.fields)) :
    FieldsFree (h.modifyClass name g) := by
  intro a c' hc' he field f hfield
  obtain ⟨c, hc, ⟨_, rfl⟩ | ⟨_, rfl⟩⟩ := Hierarchy.exists_of_modifyClass hc'
  · rw [(hg c).1] at he
    exact hf a c hc he field f ((hg c).2 he ▸ hfield)
  · exact hf a _ hc he field f hfield

theorem nameEnums (hf : FieldsFree h) (names : Names) (cls : String) :
    FieldsFree (nameEnums names cls h) := by
  refine hf.modifyClass cls fun c => ?_
  unfold nameEnum
  split
  · next he => exact ⟨rfl, fun hno => absurd (he.symm.trans hno) (by decide)⟩
  · exact ⟨rfl, fun _ => rfl⟩

theorem settle (hf : FieldsFree h) (names : Names) (cls : String) :
    FieldsFree (settle names cls h).1 := by
  cases hc : h.class? cls with
  | none =>
    rw [settle_of_none hc]
    exact hf
  | some c =>
    have hbound := (hf.nameEnums names cls).of_sameBut
      (sameBut_naming_boundAt names cls c.isAbstract h)
    have haccessors := hbound.modifyClass cls (g := nameAccessors) fun _ => ⟨rfl, fun _ => rfl⟩
    rw [settle_fst hc]
    exact haccessors.modifyClass cls fun _ => ⟨rfl, fun _ => rfl⟩

end FieldsFree

/-! ## Steps of a run -/

namespace Continues

variable {p : ClassPath}

theorem of_sameBut {h' : Hierarchy} (hh : SameBut MethodNode.naming p.hierarchy h') :
    Continues p { p with hierarchy := h' } := by
  refine of_alike (hh.alike_of MethodNode.bare_naming) fun r m m' hm hm' hpinned => ?_
  obtain ⟨n, hn, hnaming⟩ := hh.exists_method hm
  cases hn.symm.trans hm'
  exact (MethodNode.pinned_eq_of_naming hnaming).trans hpinned

theorem settle (names : Names) (p : ClassPath) (cls : String) :
    Continues p { p with hierarchy := (settle names cls p.hierarchy).1 } := by
  refine of_alike (alike_settle names cls p.hierarchy) fun r m m' hm hm' hpinned => ?_
  obtain ⟨n, hn, hnaming | ⟨c, official, _, _, _, _, _, hnaming⟩⟩ := exists_of_settle hm'
  · cases hm.symm.trans hn
    exact (MethodNode.pinned_eq_of_naming hnaming).trans hpinned
  · exact MethodNode.pinned_eq_of_naming hnaming

theorem unify (p : ClassPath) (loaded : List String) (cls : String) :
    Continues p
      { p with hierarchy := unifyInterface p.isPrimary loaded cls p.hierarchy } := by
  have hsame := sameBut_unifyInterface p.isPrimary loaded cls p.hierarchy
  refine of_alike (hsame.alike_of fun _ => rfl) fun r m m' hm hm' hpinned => ?_
  obtain ⟨n, hn, hview⟩ := hsame.exists_method hm
  cases hn.symm.trans hm'
  exact (MethodNode.pinned_eq_of_sansUnity hview).trans hpinned

end Continues

/-- All names that are forced are forced as they may be. -/
structure WellNamed (names : Names) (p : ClassPath) : Prop where
  keyed : Keyed p.hierarchy
  methods : ∀ r m, p.hierarchy.method? r = some m → Named names p m
  fields : FieldsFree p.hierarchy

namespace WellNamed

variable {names : Names} {p : ClassPath}

theorem of_asRead (hp : p.hierarchy.AsRead) : WellNamed names p where
  keyed := hp.keyed
  methods r m hm := by
    obtain ⟨c, hc, hcm⟩ := Hierarchy.method?_eq_some.mp hm
    obtain ⟨bytes, isLocal, hb⟩ := hp _ _ hc
    obtain ⟨hforced, hpinned⟩ := (ClassNode.unforced_of_ofBytes? hb).1 _ _ hcm
    exact .free hpinned hforced
  fields a c hc _ field f hf := by
    obtain ⟨bytes, isLocal, hb⟩ := hp _ _ hc
    exact (ClassNode.unforced_of_ofBytes? hb).2 field f hf

theorem ask (hp : WellNamed names p) (l : List String) : WellNamed names (p.ask l) :=
  { hp with methods := fun r m hm => (hp.methods r m hm).of_continues (.ask p l) }

theorem add (hp : WellNamed names p) (name : String) (bytes : Bytes) (isPrimary : Bool) :
    WellNamed names (p.add name bytes isPrimary) where
  keyed := ClassPath.keyed_add hp.keyed name bytes isPrimary
  methods r m hm := by
    obtain ⟨c, hc, hcm⟩ := Hierarchy.method?_eq_some.mp hm
    rw [ClassPath.class?_add] at hc
    split at hc
    · obtain ⟨hforced, hpinned⟩ := (ClassNode.unforced_of_ofBytes? hc).1 _ _ hcm
      exact .free hpinned hforced
    · exact (hp.methods r m (Hierarchy.method?_eq_some.mpr ⟨c, hc, hcm⟩)).of_continues
        (.add p name bytes isPrimary)
  fields a c hc he field f hf := by
    rw [ClassPath.class?_add] at hc
    split at hc
    · exact (ClassNode.unforced_of_ofBytes? hc).2 field f hf
    · exact hp.fields a c hc he field f hf

theorem link (hp : WellNamed names p) (cls : String) :
    WellNamed names { p with hierarchy := linkBouncers p.hierarchy cls } := by
  have hsame : SameBut MethodNode.naming p.hierarchy (linkBouncers p.hierarchy cls) :=
    (sameBut_linkBouncers p.hierarchy cls).map MethodNode.naming
  refine ⟨hp.keyed.of_alike (hsame.alike_of MethodNode.bare_naming), fun r m hm => ?_,
    hp.fields.of_sameBut hsame⟩
  obtain ⟨n, hn, hnaming⟩ := hsame.symm.exists_method hm
  exact ((hp.methods r n hn).of_naming hnaming.symm).of_continues (.of_sameBut hsame)

/-- A class is asked for before it is settled. -/
theorem settle (hp : WellNamed names p) {cls : String} (hcls : cls ∈ p.asked) :
    WellNamed names { p with hierarchy := (settle names cls p.hierarchy).1 } := by
  refine ⟨hp.keyed.of_alike (alike_settle names cls p.hierarchy), fun r m' hm' => ?_,
    hp.fields.settle names cls⟩
  refine Named.of_continues ?_ (.settle names p cls)
  obtain ⟨m, hm, hnaming | ⟨c, official, ho, hc, he, hknown, hlisted, hnaming⟩⟩ :=
    exists_of_settle hm'
  · exact (hp.methods r m hm).of_naming hnaming
  · have howner : m.owner = r.owner := (hp.keyed.slot_eq hm).1
    have hname : c.name = m.owner := (hp.keyed.name_eq hc).trans howner.symm
    rw [hname] at hknown hlisted
    have hlists : Lists names p (m.pin official) official :=
      { pinned := rfl
        forced := rfl
        asked := show m.owner ∈ p.asked from howner ▸ ho ▸ hcls
        isEnum := ⟨c, howner ▸ hc, he⟩
        listed := hlisted
        known := hknown }
    exact (Named.listed hlists).of_naming hnaming

/-- A method that has the name of a counterpart forced on it has its key. -/
theorem named_of_force (hp : WellNamed names p) {g g' : Hierarchy} {classes : List String}
    {key : String} {i o : MethodNode} (hclasses : ∀ a ∈ classes, a ∈ p.asked)
    (hg : Alike p.hierarchy g) (hg' : Alike p.hierarchy g')
    (hnamed : ∀ r m, g.method? r = some m → Named names p m)
    (hi : i ∈ siblings g' classes key) (ho : o ∈ siblings g' classes key) :
    ∀ r m, (g.modifyMethod i.ref (·.force o.name)).method? r = some m → Named names p m := by
  intro r m hm
  obtain ⟨n, hn, ⟨hslot, rfl⟩ | ⟨_, rfl⟩⟩ := Hierarchy.exists_of_modifyMethod hm
  · obtain ⟨⟨a, _, c, hc, hci⟩, _⟩ := mem_siblings.mp hi
    have hikey : i.key = key := ((hp.keyed.of_alike hg').of_mem_class hc hci).2.1
    have hkey : n.key = key :=
      ((hp.keyed.of_alike hg).slot_eq hn).2.trans (hslot.2.symm.trans hikey)
    have hbears := bears_of_sibling (hp.keyed.of_alike hg') hg'.symm hclasses ho
    exact (hnamed r n hn).force (hkey ▸ hbears)
  · exact hnamed r m hn

theorem unify (hp : WellNamed names p) {loaded : List String} {cls : String}
    (hscope : ∀ a ∈ scope p.hierarchy loaded cls, a ∈ p.asked) :
    WellNamed names
      { p with hierarchy := unifyInterface p.isPrimary loaded cls p.hierarchy } := by
  have hsame := sameBut_unifyInterface p.isPrimary loaded cls p.hierarchy
  have hnamed : ∀ r m, (unifyInterface p.isPrimary loaded cls p.hierarchy).method? r = some m →
      Named names p m := by
    refine (unifyInterface_induction (P := fun g => SameBut MethodNode.sansUnity p.hierarchy g ∧
      ∀ r m, g.method? r = some m → Named names p m) ⟨.refl _, hp.methods⟩
      (fun g _ _ _ i hg _ _ _ _ _ => ?_) fun g g' key i o hg hg' hi ho => ?_).2
    · refine ⟨hg.1.trans (Hierarchy.sameBut_modifyMethod g i.ref fun _ => rfl), fun r m hm => ?_⟩
      obtain ⟨n, hn, ⟨_, rfl⟩ | ⟨_, rfl⟩⟩ := Hierarchy.exists_of_modifyMethod hm
      · exact (hg.2 r n hn).of_naming rfl
      · exact hg.2 r m hn
    · refine ⟨hg.1.trans (Hierarchy.sameBut_modifyMethod g i.ref fun n =>
        sansUnity_force n o.name), ?_⟩
      exact hp.named_of_force (fun a ha => hscope a (ExtTreeSet.mem_toList.mp ha))
        (hg.1.alike_of fun _ => rfl) (hg'.1.alike_of fun _ => rfl) hg.2 hi ho
  refine ⟨hp.keyed.of_alike (hsame.alike_of fun _ => rfl), fun r m hm => ?_,
    hp.fields.of_sameBut hsame⟩
  exact (hnamed r m hm).of_continues (.unify p loaded cls)

end WellNamed

/-! ## Whole runs -/

theorem persists_wellNamed (names : Names) (start : ClassPath) :
    Persists names fun p => WellNamed names p ∧ Continues start p where
  ask p l hp := ⟨hp.1.ask l, hp.2.trans (.ask p l)⟩
  add p name bytes isPrimary hp :=
    ⟨hp.1.add name bytes isPrimary, hp.2.trans (.add p name bytes isPrimary)⟩
  link p cls hp :=
    ⟨hp.1.link cls, hp.2.trans
      (.of_sameBut ((sameBut_linkBouncers p.hierarchy cls).map MethodNode.naming))⟩
  settle p cls hcls hp := ⟨hp.1.settle hcls, hp.2.trans (.settle names p cls)⟩
  unify p loaded cls hscope hp := ⟨hp.1.unify hscope, hp.2.trans (.unify p loaded cls)⟩

section Runs

variable {names : Names} {p p' : ClassPath} {m : MethodNode}

theorem Named.exists_lists (hm : Named names p m) (hpinned : m.pinned) :
    ∃ official, Lists names p m official := by
  cases hm with
  | free hno => rw [hno] at hpinned; cases hpinned
  | shared hno => rw [hno] at hpinned; cases hpinned
  | listed hlists => exact ⟨_, hlists⟩

/-- A name that has been forced for good is forced ever after: there is only one
that could be. -/
theorem Continues.exists_pinned (hp : Continues p p') (hnamed : WellNamed names p)
    (hnamed' : WellNamed names p') {r : MemberRef} (hm : p.hierarchy.method? r = some m)
    (hpinned : m.pinned) :
    ∃ m', p'.hierarchy.method? r = some m' ∧ m'.pinned ∧ m'.forcedName = m.forcedName := by
  obtain ⟨official, hlists⟩ := (hnamed.methods r m hm).exists_lists hpinned
  have howner : m.owner = r.owner := (hnamed.keyed.slot_eq hm).1
  obtain ⟨m', hm', hbare, hpinned'⟩ := hp.methods r m (howner ▸ hlists.asked) hm
  obtain ⟨official', hlists'⟩ := (hnamed'.methods r m' hm').exists_lists (hpinned' hpinned)
  obtain ⟨ho, hn, hd⟩ := MemberRef.mk.injEq .. ▸ MethodNode.ref_eq hbare
  have hknown := hlists'.known
  rw [ho, hn, hd, hlists.known] at hknown
  refine ⟨m', hm', hpinned' hpinned, ?_⟩
  rw [hlists'.forced, hlists.forced, hknown]

/-- The names of the methods that an enum is listed by. -/
theorem Lists.cases {official : String} (hm : Lists names p m official) :
    m.forcedName = some "values" ∧ m.descriptor = "()[L" ++ m.owner ++ ";" ∨
      m.forcedName = some "valueOf" ∧
        m.descriptor = "(Ljava/lang/String;)L" ++ m.owner ++ ";" := by
  have hsame : ∀ s : Selector, ⟨official, m.descriptor⟩ = s →
      m.forcedName = some s.name ∧ m.descriptor = s.descriptor := by
    rintro s rfl
    exact ⟨hm.forced, rfl⟩
  exact (List.mem_cons.mp hm.listed).imp (hsame _) fun h => hsame _ (List.mem_singleton.mp h)

/-- Whatever has been done, the name that is forced on a method is its own, or the
one that the platform finds it by in an enum class; the latter stays for good.  A
method is forced to bear another name only if an overridable method of that name
in a loaded class has the same key.  Names are forced on the fields of enum classes
only. -/
theorem forcedName_afterOperations (names : Names) (sources : List ClassTable)
    {operations : List Operation} (ho : ∀ operation ∈ operations, ¬ operation.IsEdit) :
    let r := afterOperations names sources operations
    (∀ q m, r.path.hierarchy.method? q = some m →
      m.pinned = false ∧ m.forcedName = none ∨
      m.pinned = false ∧ m.forcedName = some m.name ∨
      (m.pinned ∧ (∃ c, r.path.hierarchy.class? m.owner = some c ∧ c.isEnum) ∧
        (m.forcedName = some "values" ∧ m.descriptor = "()[L" ++ m.owner ++ ";" ∨
          m.forcedName = some "valueOf" ∧
            m.descriptor = "(Ljava/lang/String;)L" ++ m.owner ++ ";")) ∨
      m.pinned = false ∧ ∃ k, Loads r.path k ∧ k.isOverridable ∧ k.key = m.key ∧
        k.name ≠ m.name ∧ m.forcedName = some k.name) ∧
    (∀ q m, r.path.hierarchy.method? q = some m → m.pinned →
      ∀ later : List Operation, (∀ operation ∈ later, ¬ operation.IsEdit) →
        ∃ m', (later.foldl (perform names) r).path.hierarchy.method? q = some m' ∧
          m'.pinned ∧ m'.forcedName = m.forcedName) ∧
    ∀ a c, r.path.hierarchy.class? a = some c →
      ∀ (field : String) f, c.fields[field]? = some f → f.forcedName ≠ none → c.isEnum := by
  intro r
  have hr : WellNamed names r.path :=
    ((persists_wellNamed names _).afterOperations
      ⟨.of_asRead (ClassPath.asRead_ofSources sources), .refl _⟩ ho).1
  refine ⟨fun q m hm => ?_, fun q m hm hpinned later hlater => ?_,
    fun a c hc field f hf hforced => ?_⟩
  · cases hr.methods q m hm with
    | free hpinned hforced => exact Or.inl ⟨hpinned, hforced⟩
    | @shared name hpinned hforced hbears =>
      obtain ⟨k, hk, hasked, hover, hkey, rfl⟩ := hbears
      by_cases hname : k.name = m.name
      · exact Or.inr (Or.inl ⟨hpinned, hname ▸ hforced⟩)
      · exact Or.inr (Or.inr (Or.inr ⟨hpinned, k, (loads_iff hr.keyed).mpr ⟨hk, hasked⟩, hover,
          hkey, hname, hforced⟩))
    | listed hlists =>
      exact Or.inr (Or.inr (Or.inl ⟨hlists.pinned, hlists.isEnum, hlists.cases⟩))
  · obtain ⟨hlaternamed, hcontinues⟩ :=
      (persists_wellNamed names r.path).performAll (r := r) ⟨hr, .refl _⟩ hlater
    exact hcontinues.exists_pinned hr hlaternamed hm hpinned
  · by_contra hno
    exact hforced (hr.fields a c hc (Bool.eq_false_iff.mpr hno) field f hf)

end Runs

namespace Sample

open Assembly (Sketch)

/-- An enum class whose members have been given other names. -/
def kind : Sketch where
  name := "Kind"
  superName := none
  access := .ofModifiers [.pub, .enum]
  declarations := [returning [.pub, .static] "a" "()[LKind;"]

def officialNames : Names :=
  .table (NamingTable.empty.update "Kind" fun c =>
    { c.addMethod ⟨"a", "()[LKind;"⟩ "values" with target := "Kind" })

def kindOperations : List Operation :=
  [.request (.register (archive [kind]) true), .resolve "Kind"]

set_option maxRecDepth 10000 in
theorem pinned_kind : ((afterOperations officialNames [] kindOperations).path.hierarchy.method?
    ⟨"Kind", "a", "()[LKind;"⟩).any fun m => m.pinned ∧ m.descriptor = "()[LKind;" := by
  simp only [afterOperations, kindOperations, List.foldl_cons, List.foldl_nil, perform,
    resolve_eq_resolving]
  decide +kernel

/-- The method of the enum gets its official name, which later operations do not
take from it. -/
theorem forcedName_afterOperations_kind :
    (∀ operation ∈ kindOperations, ¬ operation.IsEdit) ∧
    ∃ m, (afterOperations officialNames [] kindOperations).path.hierarchy.method?
        ⟨"Kind", "a", "()[LKind;"⟩ = some m ∧ m.forcedName = some "values" ∧
      ∃ m', ((afterOperations officialNames [] kindOperations).resolveArchive officialNames
          ["Kind"]).path.hierarchy.method? ⟨"Kind", "a", "()[LKind;"⟩ = some m' ∧
        m'.pinned ∧ m'.forcedName = some "values" := by
  have ho : ∀ operation ∈ kindOperations, ¬ operation.IsEdit := by
    simp [kindOperations, Operation.IsEdit]
  obtain ⟨hmethods, hpins, _⟩ := forcedName_afterOperations officialNames [] ho
  obtain ⟨m, hm, hflags⟩ := (Option.any_eq_true _ _).mp pinned_kind
  obtain ⟨hpinned, hdescriptor⟩ := of_decide_eq_true hflags
  have hforced : m.forcedName = some "values" := by
    rcases hmethods _ m hm with ⟨hno, _⟩ | ⟨hno, _⟩ | ⟨_, _, ⟨hforced, _⟩ | ⟨_, hother⟩⟩ | ⟨hno, _⟩
    · exact absurd (hno.symm.trans hpinned) (by decide)
    · exact absurd (hno.symm.trans hpinned) (by decide)
    · exact hforced
    · -- the descriptor of `valueOf` starts with another character
      rw [hdescriptor, String.ext_iff, String.toList_append, String.toList_append] at hother
      simp at hother
    · exact absurd (hno.symm.trans hpinned) (by decide)
  obtain ⟨m', hm', hpinned', hforced'⟩ := hpins _ m hm hpinned [.resolveArchive ["Kind"]]
    (by simp [Operation.IsEdit])
  exact ⟨ho, m, hm, hforced, m', hm', hpinned', hforced'.trans hforced⟩

def takerOperations : List Operation :=
  takerRequests.map .request ++ [.resolveArchive ["Inner", "Taker"]]

theorem afterOperations_taker : afterOperations .asWritten [] takerOperations = unifiedTaker := rfl

/-- The name that is forced on the method is none that the method may have. -/
theorem forcedName_afterOperations_taker :
    (∀ operation ∈ takerOperations, ¬ operation.IsEdit) ∧
    ∃ m, (afterOperations .asWritten [] takerOperations).path.hierarchy.method?
        ⟨"Taker", "m", "()La(I)Lb;"⟩ = some m ∧
      m.forcedName ∉ [none, some m.name, some "values", some "valueOf"] := by
  refine ⟨by simp [takerOperations, takerRequests, Operation.IsEdit], ?_⟩
  obtain ⟨hbefore, hafter⟩ := forcedName_taker
  obtain ⟨n, hn, hname⟩ := Option.map_eq_some_iff.mp hbefore
  obtain ⟨m, hm, hforced⟩ := Option.map_eq_some_iff.mp hafter
  have halike : Alike resolvedTaker.path.hierarchy unifiedTaker.path.hierarchy :=
    alike_unifyAll resolvedTaker ["Inner", "Taker"]
  obtain ⟨k, hk, hbare⟩ := halike.exists_method hn
  cases hk.symm.trans hm
  have hsame : m.name = n.name := congrArg MemberRef.name (MethodNode.ref_eq hbare).symm
  rw [afterOperations_taker]
  refine ⟨m, hm, ?_⟩
  obtain ⟨hname, _⟩ := Prod.mk.injEq .. ▸ hname
  rw [hforced, hsame, hname]
  decide

end Sample

end Resolution
end Lineage
