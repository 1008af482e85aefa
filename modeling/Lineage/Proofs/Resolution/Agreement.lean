import Lineage.Proofs.Resolution.Roots
import Lineage.Proofs.Resolution.Walks

/-!
Resolving in hierarchies that agree.

Every pass over a class looks only at what the class leads to.  So if two
hierarchies agree on classes out of which nothing leads, a pass over one of
these classes notices the same in both and leaves them agreeing.
-/

namespace Lineage

open Std (ExtTreeMap ExtTreeSet)

namespace Resolution

open Hierarchy (Agree Keyed SameBut)

variable {S : String → Prop} {h h' : Hierarchy} {cls : String}

/-- The hierarchies agree, and the findings are the same. -/
def Agreed (S : String → Prop) (s s' : Hierarchy × List Finding) : Prop :=
  Agree S s.1 s'.1 ∧ s.2 = s'.2

/-! ## Bouncers -/

theorem bouncesOf_eq (hh : Agree S h h') (hc : S cls) : bouncesOf h cls = bouncesOf h' cls := by
  rw [bouncesOf, bouncesOf, hh.class?_eq hc]

theorem inside_of_mem_bouncesOf (hh : Agree S h h') (hc : S cls) {b : MemberRef × MemberRef}
    (hb : b ∈ bouncesOf h cls) : Walk.Known h b.1 ∧ S b.1.owner ∧ S b.2.owner := by
  obtain ⟨howner, m, bounce, hm, href, hbounce, htarget⟩ := (mem_bouncesOf hh.keyed).mp hb
  have hS : S b.1.owner := howner ▸ hc
  refine ⟨?_, hS, ?_⟩
  · rw [Walk.Known, hm, Option.map_some, href]
  · rw [← htarget]
    exact (hh.inside hS hm).target bounce hbounce

theorem agree_linkBouncers (hh : Agree S h h') (hc : S cls) :
    Agree S (linkBouncers h cls) (linkBouncers h' cls) := by
  unfold linkBouncers
  rw [← bouncesOf_eq hh hc]
  refine List.foldl_rel hh fun b hb g g' hg => ?_
  refine hg.modifyMethod b.2 (fun _ => rfl) fun m hm => ⟨fun f hf => ?_, hm.target⟩
  rcases ExtTreeSet.mem_insert.mp hf with hf | hf
  · rw [← Std.LawfulEqOrd.eq_of_compare hf]
    exact (inside_of_mem_bouncesOf hh hc hb).2.1
  · exact hm.forwarders f hf

theorem bare_retarget (m : MethodNode) (target : MemberRef) :
    (m.retarget target).bare = m.bare := by
  rw [← bare_sansBounce, sansBounce_retarget, bare_sansBounce]

theorem agree_retarget (cls : String) (hh : Agree S h h') (bouncer : MemberRef) {target : MemberRef}
    (ht : S target.owner) :
    Agree S (retarget cls h bouncer target) (retarget cls h' bouncer target) := by
  unfold retarget
  rw [← hh.declaration?_eq ht]
  split
  · exact hh
  · split
    · next declared hd =>
      refine hh.modifyMethod bouncer (fun m => bare_retarget m declared) fun m hm =>
        ⟨hm.forwarders, fun b hb => ?_⟩
      obtain ⟨_, _, rfl⟩ := Option.map_eq_some_iff.mp hb
      exact hh.of_declaration? ht hd
    · exact hh

theorem agreed_landBouncer (hh : Agree S h h') (hc : S cls) {bouncer : MemberRef}
    (hb : Walk.Known h bouncer) (ho : S bouncer.owner) :
    Agreed S (landBouncer cls bouncer h) (landBouncer cls bouncer h') := by
  have hbegin : Walk.Abreast S h h' (viewpointCount h + 1) (viewpointCount h' + 1)
      { hierarchy := h, findings := [], seen := [] }
      { hierarchy := h', findings := [], seen := [] } :=
    { agree := hh
      findings := rfl
      seen := rfl
      since := .refl h
      since' := .refl h'
      fuel := Walk.left_lt h []
      fuel' := Walk.left_lt h' [] }
  have htwin := Walk.twin_walk hb ho hc _ _ hbegin
  unfold landBouncer
  generalize (Walk.walk (viewpointCount h + 1) bouncer cls).run
    { hierarchy := h, findings := [], seen := [] } = answer at htwin ⊢
  generalize (Walk.walk (viewpointCount h' + 1) bouncer cls).run
    { hierarchy := h', findings := [], seen := [] } = answer' at htwin ⊢
  obtain ⟨root, w⟩ := answer
  obtain ⟨root', w'⟩ := answer'
  obtain ⟨rfl, hend⟩ : root = root' ∧ _ := htwin
  cases root with
  | none => exact ⟨hend.agree, hend.findings⟩
  | some root =>
    by_cases hr : root.owner = cls
    · simpa only [hr, if_true] using ⟨hend.agree, hend.findings⟩
    · have hland := hend.agree.modifyMethod bouncer (fun m => Walk.bare_land m root)
        fun m hm => Walk.inside_land hm root
      simpa only [hr, if_false] using ⟨hland, hend.findings⟩

theorem agreed_resolveBounces (hh : Agree S h h') (hc : S cls) :
    Agreed S (resolveBounces cls h) (resolveBounces cls h') := by
  unfold resolveBounces
  rw [← bouncesOf_eq hh hc]
  refine (List.foldl_rel (r := fun s s' : Hierarchy × List Finding =>
    SameBut MethodNode.sansBounce h s.1 ∧ Agreed S s s') (a := (h, [])) (b := (h', []))
    ⟨.refl h, hh, rfl⟩ fun b hb s s' hs => ?_).2
  obtain ⟨hsince, hagree, hfindings⟩ := hs
  obtain ⟨hknown, howner, htarget⟩ := inside_of_mem_bouncesOf hh hc hb
  have hretarget := hsince.trans (sameBut_retarget s.1 cls b.1 b.2)
  obtain ⟨hland, hnew⟩ := agreed_landBouncer (agree_retarget cls hagree b.1 htarget) hc
    (hknown.of_sameBut hretarget) howner
  have hkept := sameBut_landBouncer (retarget cls s.1 b.1 b.2) cls b.1
  unfold resolveBouncer
  generalize landBouncer cls b.1 (retarget cls s.1 b.1 b.2) = landed at hland hnew hkept ⊢
  generalize landBouncer cls b.1 (retarget cls s'.1 b.1 b.2) = landed' at hland hnew ⊢
  exact ⟨hretarget.trans hkept, hland, congrArg₂ (· ++ ·) hfindings hnew⟩

/-! ## The other passes over a class -/

theorem inside_nameEnumMethod (names : Names) (cls : String) {m : MethodNode} (hm : m.Inside S) :
    (nameEnumMethod names cls m).Inside S := by
  unfold nameEnumMethod
  split
  · split
    · exact ⟨hm.forwarders, hm.target⟩
    · exact hm
  · exact hm

theorem agree_nameEnums (names : Names) (cls : String) (hh : Agree S h h') :
    Agree S (nameEnums names cls h) (nameEnums names cls h') := by
  refine hh.modifyClass cls (bare_nameEnum names) fun c key m hm => ?_
  unfold nameEnum at hm
  split at hm
  · simp only [ClassNode.method?, ExtTreeMap.getElem?_map, Option.map_eq_some_iff] at hm
    obtain ⟨n, hn, rfl⟩ := hm
    exact ⟨n, hn, inside_nameEnumMethod names c.name⟩
  · exact ⟨m, hm, id⟩

theorem agree_linkMethods (hh : Agree S h h') (hc : S cls) :
    Agree S (linkMethods cls h) (linkMethods cls h') := by
  have hmethods : methodsOf h cls = methodsOf h' cls := by
    rw [methodsOf, methodsOf, hh.class?_eq hc]
  unfold linkMethods
  rw [← hmethods]
  refine List.foldl_rel hh fun r hr g g' hg => ?_
  have hS : S r.owner := ((mem_methodsOf hh.keyed).mp hr).1 ▸ hc
  unfold linkMethod
  rw [hg.overrideRoots_eq hS hc, hg.nearestParent?_eq hS hc]
  exact hg.modifyMethod r (fun _ => rfl) fun m hm => ⟨hm.forwarders, hm.target⟩

/-- The classes under some names. -/
theorem filterMap_class?_eq (hh : Agree S h h') {classes : List String}
    (hc : ∀ c ∈ classes, S c) : classes.filterMap h.class? = classes.filterMap h'.class? :=
  List.filterMap_congr fun c hm => hh.class?_eq (hc c hm)

theorem agreed_bindContracts (hh : Agree S h h') (hc : S cls) :
    Agreed S (bindContracts cls h) (bindContracts cls h') := by
  have hin : ∀ c ∈ h.ancestors cls, S c := fun c hm => hh.of_mem_ancestors hc hm
  have hcontracts : contracts h (h.ancestors cls) = contracts h' (h.ancestors cls) := by
    unfold contracts
    rw [filterMap_class?_eq hh hin]
  unfold bindContracts
  dsimp only
  rw [← hh.ancestors_eq hc, ← hcontracts]
  refine List.foldl_rel (r := Agreed S) (a := (h, [])) (b := (h', [])) ⟨hh, rfl⟩
    fun contract _ s s' hs => ?_
  unfold bindContract implementation?
  rw [← filterMap_class?_eq hs.1 hin]
  split
  · exact ⟨hs.1.modifyMethod _ (fun _ => rfl) fun m hm => ⟨hm.forwarders, hm.target⟩, hs.2⟩
  · exact ⟨hs.1, congrArg (· ++ _) hs.2⟩

theorem agreed_resolveComponents (hh : Agree S h h') (hc : S cls) :
    Agreed S (resolveComponents cls h) (resolveComponents cls h') := by
  refine ⟨?_, ?_⟩
  · exact hh.modifyClass cls bare_nameAccessors fun c key m hm => ⟨m, hm, id⟩
  · show ((h.class? cls).map crowdedComponents).getD [] = _
    rw [hh.class?_eq hc]
    rfl

/-- Settling a class notices the same in hierarchies that agree, and leaves them
agreeing. -/
theorem agreed_settle (names : Names) (hh : Agree S h h') (hc : S cls) :
    Agreed S (settle names cls h) (settle names cls h') := by
  unfold settle
  rw [← hh.class?_eq hc]
  split
  · exact ⟨hh, rfl⟩
  · next c _ =>
    have hbounced := agreed_resolveBounces (agree_nameEnums names cls hh) hc
    have hlinked := agree_linkMethods hbounced.1 hc
    have hbound : Agreed S
        (if c.isAbstract then (linkMethods cls (resolveBounces cls (nameEnums names cls h)).1, [])
          else bindContracts cls (linkMethods cls (resolveBounces cls (nameEnums names cls h)).1))
        (if c.isAbstract then (linkMethods cls (resolveBounces cls (nameEnums names cls h')).1, [])
          else bindContracts cls
            (linkMethods cls (resolveBounces cls (nameEnums names cls h')).1)) := by
      split
      · exact ⟨hlinked, rfl⟩
      · exact agreed_bindContracts hlinked hc
    have hrecorded := agreed_resolveComponents hbound.1 hc
    refine ⟨hrecorded.1.modifyClass cls (fun _ => rfl) fun c key m hm => ⟨m, hm, id⟩, ?_⟩
    exact congrArg₂ (· ++ ·) (congrArg₂ (· ++ ·) hbounced.2 hbound.2) hrecorded.2

/-! ## Interfaces -/

/-- A class met in a loaded class is among those that nothing leads out of. -/
theorem of_mem_scope (hh : Agree S h h') {loaded : List String} (hl : ∀ c ∈ loaded, S c)
    {c : String} (hc : c ∈ scope h loaded cls) : S c := by
  obtain ⟨b, hb, _, _, hbc⟩ := mem_scope.mp hc
  exact hh.of_mem_ancestors (hl b hb) hbc

theorem scope_eq (hh : Agree S h h') {loaded : List String} (hl : ∀ c ∈ loaded, S c) :
    scope h loaded cls = scope h' loaded cls := by
  have hinstances : (loaded.filter fun c => c != cls && h.isInstance c cls) =
      loaded.filter fun c => c != cls && h'.isInstance c cls :=
    List.filter_congr fun c hc => by rw [hh.isInstance_eq (hl c hc)]
  unfold scope
  rw [← hinstances]
  refine List.foldl_rel rfl fun a ha s s' hs => ?_
  rw [hs, hh.ancestors_eq (hl a (List.mem_filter.mp ha).1)]

theorem of_mem_siblings (hh : Agree S h h') {classes : List String} (hc : ∀ c ∈ classes, S c)
    {key : String} {m : MethodNode} (hm : m ∈ siblings h classes key) : S m.owner := by
  obtain ⟨name, hn, c, hname, hkey⟩ := (mem_siblings.mp hm).1
  rw [(hh.keyed.of_mem_class hname hkey).1]
  exact hc name hn

theorem agree_addOverrides (hh : Agree S h h') (r : MemberRef) (roots : MemberSet) :
    Agree S (h.modifyMethod r (·.addOverrides roots)) (h'.modifyMethod r (·.addOverrides roots)) :=
  hh.modifyMethod r (fun _ => rfl) fun _ hm => ⟨hm.forwarders, hm.target⟩

theorem agree_force (hh : Agree S h h') (r : MemberRef) (name : String) :
    Agree S (h.modifyMethod r (·.force name)) (h'.modifyMethod r (·.force name)) := by
  refine hh.modifyMethod r (fun m => ?_) fun m hm => ?_
  · unfold MethodNode.force
    split <;> rfl
  · unfold MethodNode.force
    split
    · exact hm
    · exact ⟨hm.forwarders, hm.target⟩

theorem agree_forceExternalName (isPrimary : String → Bool) (methods : List MethodNode)
    (hh : Agree S h h') :
    Agree S (forceExternalName isPrimary methods h) (forceExternalName isPrimary methods h') := by
  unfold forceExternalName
  split
  · exact List.foldl_rel hh fun m _ g g' hg => agree_force hg m.ref _
  · exact hh

theorem agree_unifyMethod (isPrimary : String → Bool) {classes : List String}
    (hh : Agree S h h') (hc : ∀ c ∈ classes, S c) (m : MethodNode) :
    Agree S (unifyMethod isPrimary cls classes h m) (unifyMethod isPrimary cls classes h' m) := by
  have hsiblings : siblings h classes m.key = siblings h' classes m.key := by
    rw [siblings, siblings, filterMap_class?_eq hh hc]
  have himplementations : (siblings h classes m.key).filter (isImplementation h cls) =
      (siblings h classes m.key).filter (isImplementation h' cls) := by
    refine List.filter_congr fun n hn => ?_
    have hS := of_mem_siblings hh hc hn
    rw [isImplementation, isImplementation, hh.class?_eq hS, hh.isInstance_eq hS]
  unfold unifyMethod
  dsimp only
  rw [← hsiblings, ← himplementations]
  split
  · exact hh
  · refine agree_forceExternalName isPrimary _ ?_
    exact List.foldl_rel hh fun n _ g g' hg => agree_addOverrides hg n.ref {m.ref}

theorem agree_unifyInterface (isPrimary : String → Bool) {loaded : List String}
    (hh : Agree S h h') (hl : ∀ c ∈ loaded, S c) (hc : S cls) :
    Agree S (unifyInterface isPrimary loaded cls h) (unifyInterface isPrimary loaded cls h') := by
  unfold unifyInterface
  rw [← hh.class?_eq hc, ← scope_eq hh hl]
  split
  · split
    · exact List.foldl_rel hh fun m _ g g' hg =>
        agree_unifyMethod isPrimary hg (fun c hcm =>
          of_mem_scope hh hl (ExtTreeSet.mem_toList.mp hcm)) m
    · exact hh
  · exact hh

end Resolution
end Lineage
