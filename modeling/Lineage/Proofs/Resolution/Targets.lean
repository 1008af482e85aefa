import Lineage.Proofs.Resolution.Forwarding

/-!
The class that declares what a bouncer forwards to.

The instruction of a bouncer may name a class that has only inherited the method.
Resolving the class of the bouncer moves the bouncer up from there, to the first
class that declares the method.  A bouncer that names its own class is taken to
be right as it is and stays, even if the class has inherited the method.
-/

namespace Lineage

open Relation (ReflTransGen)

namespace Hierarchy

variable {h : Hierarchy} {r d : MemberRef}

theorem withOwner_of_declaration? (hd : h.declaration? r = some d) : d = r.withOwner d.owner := by
  obtain ⟨a, _, rfl⟩ := List.mem_map.mp (List.mem_of_find?_eq_some hd)
  rfl

/-- A method that is declared above the class is found. -/
theorem exists_declaration? {a : String} (ha : ReflTransGen h.supertypeGraph.Edge r.owner a)
    (hm : (h.method? (r.withOwner a)).isSome) : ∃ d, h.declaration? r = some d := by
  refine Option.isSome_iff_exists.mp (List.find?_isSome.mpr ⟨r.withOwner a, ?_, hm⟩)
  exact List.mem_map_of_mem (Graph.mem_depthFirst_iff.mpr ha)

end Hierarchy

namespace Resolution

open Hierarchy (Alike Keyed)

variable {r : Resolution} {q t : MemberRef}

theorem Declares.of_alike {h h' : Hierarchy} (ht : Declares h t) (hh : Alike h h') :
    Declares h' t := by
  obtain ⟨m, hm, href⟩ := ht
  obtain ⟨m', hm', hbare⟩ := hh.exists_method hm
  exact ⟨m', hm', (MethodNode.ref_eq hbare).symm.trans href⟩

theorem closed_mem_of_not_isResolved {h : Hierarchy} {cls : String} (hc : (h.class? cls).isSome)
    (hu : ¬ h.isResolved cls) : .closed cls ∈ (unresolvedGraph h).traversal cls :=
  Graph.closed_mem_of_reaches .refl ((isSome_next_unresolvedGraph h cls).mpr ⟨hc, hu⟩)

/-- A class that is there is resolved afterwards. -/
theorem isResolved_resolve_self (names : Names) (r : Resolution) {cls : String}
    (hc : (r.path.hierarchy.class? cls).isSome) :
    (r.resolve names cls).path.hierarchy.isResolved cls := by
  refine (isResolved_handles names _ _ cls).mpr ?_
  by_cases hu : r.path.hierarchy.isResolved cls
  · exact Or.inl hu
  · exact Or.inr ⟨closed_mem_of_not_isResolved hc hu, hc⟩

theorem aim?_handle (hk : Keyed r.path.hierarchy) (names : Names) (e : Graph.Event String)
    (ht : r.path.hierarchy.aim? q = some t) :
    (handle names r e).path.hierarchy.aim? q =
      some (if e = .closed q.owner then destination r.path.hierarchy q.owner t else t) := by
  cases e with
  | cycle cls => simpa using ht
  | closed cls =>
    rw [hierarchy_handle_closed, aim?_settle hk names cls ht]
    by_cases ho : q.owner = cls
    · rw [if_pos ho, if_pos (congrArg Graph.Event.closed ho.symm), ho]
    · rw [if_neg ho, if_neg fun heq => ho (Graph.Event.closed.inj heq).symm]

/-- Resolving a class points its bouncers where they are to go. -/
theorem aim?_resolve (hk : Keyed r.path.hierarchy) (names : Names)
    (hu : ¬ r.path.hierarchy.isResolved q.owner) (ht : r.path.hierarchy.aim? q = some t) :
    (r.resolve names q.owner).path.hierarchy.aim? q =
      some (destination r.path.hierarchy q.owner t) := by
  obtain ⟨m, hm, _⟩ := Hierarchy.aim?_eq_some.mp ht
  obtain ⟨c, hc, _⟩ := Hierarchy.method?_eq_some.mp hm
  -- Settling other classes does not move the bouncer, settling its own again not any further.
  refine foldl_of_mem (P := fun s : Resolution => Alike r.path.hierarchy s.path.hierarchy ∧
      (s.path.hierarchy.aim? q = some t ∨
        s.path.hierarchy.aim? q = some (destination r.path.hierarchy q.owner t)))
    (Q := fun s : Resolution => s.path.hierarchy.aim? q =
      some (destination r.path.hierarchy q.owner t))
    (closed_mem_of_not_isResolved (Option.isSome_of_eq_some hc) hu) ⟨.refl _, Or.inl ht⟩
    (fun s hs e _ => ⟨hs.1.trans (alike_handle names s e), ?_⟩) (fun s hs => ?_)
    fun s hs hend e _ => ?_
  all_goals have hks := hk.of_alike hs.1
  · rcases hs.2 with haim | haim
    · rw [aim?_handle hks names e haim, ← destination_eq hs.1]
      split
      · exact Or.inr rfl
      · exact Or.inl rfl
    · rw [aim?_handle hks names e haim, ← destination_eq hs.1, destination_destination, ite_self]
      exact Or.inr rfl
  · rcases hs.2 with haim | haim
    · rw [aim?_handle hks names _ haim, ← destination_eq hs.1, if_pos rfl]
    · rw [aim?_handle hks names _ haim, ← destination_eq hs.1, destination_destination, ite_self]
  · rw [aim?_handle hks names e hend, ← destination_eq hs.1, destination_destination, ite_self]

/-! ## What class files say -/

/-- The bouncers of classes that have not been resolved point where class files
say. -/
def Detected (h : Hierarchy) : Prop :=
  ∀ q, (h.class? q.owner).isSome → ¬ h.isResolved q.owner →
    ∃ bytes isLocal c, ClassNode.ofBytes? q.owner bytes isLocal = some c ∧
      h.aim? q = (c.method? q.key).bind MethodNode.aim?

theorem Detected.of_alike {h h' : Hierarchy} (hd : Detected h) (hh : Alike h h')
    (hkept : ∀ q, ¬ h'.isResolved q.owner →
      ¬ h.isResolved q.owner ∧ h'.aim? q = h.aim? q) : Detected h' := by
  intro q hc hu
  obtain ⟨hold, haim⟩ := hkept q hu
  rw [haim]
  exact hd q (hh.isSome_class? q.owner ▸ hc) hold

theorem detected_of_asRead {h : Hierarchy} (hh : h.AsRead) : Detected h := by
  intro q hc _
  obtain ⟨c, hc⟩ := Option.isSome_iff_exists.mp hc
  obtain ⟨bytes, isLocal, hb⟩ := hh _ _ hc
  refine ⟨bytes, isLocal, c, hb, ?_⟩
  rw [Hierarchy.aim?, Hierarchy.method?, hc]
  rfl

theorem aim?_settle_of_ne {h : Hierarchy} (hk : Keyed h) (names : Names) {cls : String}
    (hq : q.owner ≠ cls) : (settle names cls h).1.aim? q = h.aim? q := by
  cases hc : h.class? cls with
  | none => rw [settle_of_none hc]
  | some c =>
    rw [aim?_settle_of_some names hc, bouncedAt,
      aim?_resolveBounces_of_ne (hk.of_alike (alike_nameEnums names cls h)) hq, aim?_nameEnums]

/-- Bouncers are not moved before their class is resolved. -/
theorem persists_detected (names : Names) :
    Persists names fun p => Keyed p.hierarchy ∧ Detected p.hierarchy where
  ask _ _ hp := hp
  add p name bytes isPrimary hp := by
    refine ⟨ClassPath.keyed_add hp.1 name bytes isPrimary, fun q hc hu => ?_⟩
    rw [ClassPath.class?_add] at hc
    rw [Hierarchy.isResolved, ClassPath.class?_add] at hu
    rw [Hierarchy.aim?, Hierarchy.method?, ClassPath.class?_add]
    split at hc
    · next hn =>
      rw [if_pos hn]
      obtain ⟨c, hb⟩ := Option.isSome_iff_exists.mp hc
      exact ⟨bytes, isPrimary, c, hn.1 ▸ hb, by rw [hb]; rfl⟩
    · next hn =>
      rw [if_neg hn] at hu ⊢
      exact hp.2 q hc hu
  link p cls hp := by
    have hsame := sameBut_linkBouncers p.hierarchy cls
    have halike := hsame.alike_of fun _ => rfl
    refine ⟨hp.1.of_alike halike, hp.2.of_alike halike fun q hu => ⟨hsame.isResolved _ ▸ hu, ?_⟩⟩
    exact (Hierarchy.aim?_eq_of_map ((hsame.map MethodNode.aim?).method? q)).symm
  settle p cls _ hp := by
    have halike := alike_settle names cls p.hierarchy
    refine ⟨hp.1.of_alike halike, fun q hc hu => ?_⟩
    rw [← halike.isSome_class?] at hc
    rw [isResolved_settle, hc, Bool.and_true, Bool.or_eq_true, not_or, beq_iff_eq] at hu
    rw [aim?_settle_of_ne hp.1 names (Ne.symm hu.2)]
    exact hp.2 q hc hu.1
  unify p loaded cls _ hp := by
    have hsame := sameBut_unifyInterface p.isPrimary loaded cls p.hierarchy
    have halike := hsame.alike_of fun _ => rfl
    refine ⟨hp.1.of_alike halike, hp.2.of_alike halike fun q hu => ⟨hsame.isResolved _ ▸ hu, ?_⟩⟩
    exact (Hierarchy.aim?_eq_of_map ((hsame.map MethodNode.aim?).method? q)).symm

/-- Whatever has been done, the target that is known of a bouncer is the one in
its class file, as long as its class has not been resolved. -/
theorem detected_afterOperations (names : Names) (sources : List ClassTable)
    {operations : List Operation} (ho : ∀ operation ∈ operations, ¬ operation.IsEdit) :
    Keyed (afterOperations names sources operations).path.hierarchy ∧
      Detected (afterOperations names sources operations).path.hierarchy := by
  have hread := ClassPath.asRead_ofSources sources
  exact (persists_detected names).afterOperations ⟨hread.keyed, detected_of_asRead hread⟩ ho

/-! ## Resolving a class -/

/-- A class that is resolved points each of its bouncers to a class above the one
that the instruction names.  That class declares the method, if any does that can
be reached, unless the instruction names the bouncer's own class and this has
inherited the method. -/
theorem resolve_declares_target_iff (names : Names) {b : MemberRef} (hk : Keyed r.path.hierarchy)
    (hb : Bounces r.path.hierarchy b t) (hu : ¬ r.path.hierarchy.isResolved b.owner)
    (hnames : ∀ a m, ReflTransGen r.path.hierarchy.supertypeGraph.Edge t.owner a →
      r.path.hierarchy.method? (t.withOwner a) = some m → m.name = t.name)
    (hdeclared : ∃ a, ReflTransGen r.path.hierarchy.supertypeGraph.Edge t.owner a ∧
      Declares r.path.hierarchy (t.withOwner a)) :
    let after := (r.resolve names b.owner).path.hierarchy
    after.isResolved b.owner ∧ ∃ a, after.aim? b = some (t.withOwner a) ∧
      ReflTransGen r.path.hierarchy.supertypeGraph.Edge t.owner a ∧
      (Declares after (t.withOwner a) ↔
        (t.owner = b.owner → Declares r.path.hierarchy t)) := by
  intro after
  have halike : Alike r.path.hierarchy after := alike_resolve names r b.owner
  have haim := aim?_resolve hk names hu hb.aim?
  refine ⟨?_, ?_⟩
  · obtain ⟨m, hm, _⟩ := hb
    obtain ⟨c, hc, _⟩ := Hierarchy.method?_eq_some.mp hm
    exact isResolved_resolve_self names r (Option.isSome_of_eq_some hc)
  · rw [destination] at haim
    by_cases ho : t.owner = b.owner
    · rw [if_pos ho] at haim
      refine ⟨t.owner, haim, .refl, fun hend _ => hend.of_alike halike.symm, fun himp => ?_⟩
      exact (himp ho).of_alike halike
    · obtain ⟨a, hreach, m, hm, _⟩ := hdeclared
      obtain ⟨d, hd⟩ := Hierarchy.exists_declaration? hreach (Option.isSome_of_eq_some hm)
      obtain ⟨hsome, habove⟩ := Hierarchy.exists_of_declaration? hd
      have hself := Hierarchy.withOwner_of_declaration? hd
      rw [if_neg ho, hd, Option.getD_some, hself] at haim
      refine ⟨d.owner, haim, habove, iff_of_true ?_ fun heq => absurd heq ho⟩
      rw [hself] at hsome
      obtain ⟨n, hn⟩ := Option.isSome_iff_exists.mp hsome
      obtain ⟨howner, hkey⟩ := hk.slot_eq hn
      have hfound : Declares r.path.hierarchy (t.withOwner d.owner) :=
        ⟨n, hn, Hierarchy.eq_of_key howner (hnames d.owner n habove hn) hkey⟩
      exact hfound.of_alike halike

namespace Sample

/-- The bridge of the child is moved from the class that inherits the method to
the one that declares it. -/
theorem resolve_declares_target_stairs :
    Bounces stairs.hierarchy ⟨"Child", "run", "()V"⟩ ⟨"Mid", "run", "()V"⟩ ∧
    ¬ stairs.hierarchy.isResolved "Child" ∧
    ∃ a, ((start stairs).resolve .asWritten "Child").path.hierarchy.aim? ⟨"Child", "run", "()V"⟩ =
        some ⟨a, "run", "()V"⟩ ∧
      Declares ((start stairs).resolve .asWritten "Child").path.hierarchy ⟨a, "run", "()V"⟩ := by
  have hread : stairs.hierarchy.AsRead := ClassPath.asRead_afterRequests _ _
  have hb : Bounces stairs.hierarchy ⟨"Child", "run", "()V"⟩ ⟨"Mid", "run", "()V"⟩ :=
    bounces_of_any (by decide +kernel)
  have hu : ¬ stairs.hierarchy.isResolved "Child" :=
    Bool.eq_false_iff.mp (hread.isResolved_eq_false "Child")
  have hnames : ∀ c ∈ stairs.hierarchy.classes.values, ∀ m ∈ c.methods.values, m.name = "run" := by
    decide +kernel
  have hmid : stairs.hierarchy.supertypes? "Mid" = some ["Base"] := by decide +kernel
  have hbase : (stairs.hierarchy.method? ⟨"Base", "run", "()V"⟩).any (fun m =>
      m.ref = ⟨"Base", "run", "()V"⟩) := by decide +kernel
  obtain ⟨m, hm, href⟩ := (Option.any_eq_true _ _).mp hbase
  obtain ⟨_, a, haim, _, hdeclares⟩ := resolve_declares_target_iff (r := start stairs) .asWritten
    hread.keyed hb hu (fun a m _ hm => by
      obtain ⟨c, hc, hcm⟩ := Hierarchy.method?_eq_some.mp hm
      exact hnames c (mem_values_iff.mpr ⟨_, hc⟩) m (mem_values_iff.mpr ⟨_, hcm⟩))
    ⟨"Base", .single ⟨_, hmid, List.mem_cons_self⟩, m, hm, of_decide_eq_true href⟩
  exact ⟨hb, hu, a, haim, hdeclares.mpr fun heq => absurd heq (by decide)⟩

/-- A class whose bridge calls a method that the class inherits. -/
def heir : ClassPath :=
  .afterRequests [] [.register (archive
    [plain "Base" none
      [.method
        { access := .ofModifiers [.pub]
          name := "foo"
          descriptor := "()V"
          signature := none
          body := some [.op 0xB1] }],
      plain "Child" (some "Base") [run [.pub, .bridge, .synthetic]
        [.load .reference 0, .invoke 0xB7 ⟨"Child", "foo", "()V"⟩, .op 0xB1]]]) true]

/-- The bridge goes on pointing to its own class, which does not declare the
method, though the class above does. -/
theorem not_declares_target_heir :
    Bounces heir.hierarchy ⟨"Child", "run", "()V"⟩ ⟨"Child", "foo", "()V"⟩ ∧
    ReflTransGen heir.hierarchy.supertypeGraph.Edge "Child" "Base" ∧
    Declares heir.hierarchy ⟨"Base", "foo", "()V"⟩ ∧
    let after := ((start heir).resolve .asWritten "Child").path.hierarchy
    after.isResolved "Child" ∧
      after.aim? ⟨"Child", "run", "()V"⟩ = some ⟨"Child", "foo", "()V"⟩ ∧
      ¬ Declares after ⟨"Child", "foo", "()V"⟩ := by
  have hread : heir.hierarchy.AsRead := ClassPath.asRead_afterRequests _ _
  have hb : Bounces heir.hierarchy ⟨"Child", "run", "()V"⟩ ⟨"Child", "foo", "()V"⟩ :=
    bounces_of_any (by decide +kernel)
  have hu : ¬ heir.hierarchy.isResolved "Child" :=
    Bool.eq_false_iff.mp (hread.isResolved_eq_false "Child")
  have hchild : heir.hierarchy.supertypes? "Child" = some ["Base"] := by decide +kernel
  have hbase : (heir.hierarchy.method? ⟨"Base", "foo", "()V"⟩).any (fun m =>
      m.ref = ⟨"Base", "foo", "()V"⟩) := by decide +kernel
  have hnone : heir.hierarchy.method? ⟨"Child", "foo", "()V"⟩ = none := by decide +kernel
  obtain ⟨m, hm, href⟩ := (Option.any_eq_true _ _).mp hbase
  have hloaded : (heir.hierarchy.class? "Child").isSome := by decide +kernel
  refine ⟨hb, .single ⟨_, hchild, List.mem_cons_self⟩, ⟨m, hm, of_decide_eq_true href⟩,
    isResolved_resolve_self .asWritten (start heir) hloaded, ?_, ?_⟩
  · exact aim?_resolve (r := start heir) (q := ⟨"Child", "run", "()V"⟩) hread.keyed .asWritten hu
      hb.aim?
  · intro hend
    obtain ⟨n, hn, _⟩ := hend.of_alike (alike_resolve .asWritten (start heir) "Child").symm
    cases hnone.symm.trans hn

end Sample

end Resolution
end Lineage
