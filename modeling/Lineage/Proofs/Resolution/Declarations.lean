import Lineage.Proofs.Graph.Seeking
import Lineage.Proofs.Resolution.Targets

/-!
Which class declares a method that is referred to.

From the owner of the reference the search goes up depth first, in a superclass
and all its ancestors before the interfaces, and asks every class for the method.
Classes that it has asked are passed over, so it ends where classes inherit from
each other, and no declaration is lost by that.  The superclasses of the owner are
asked before all others.

The tables of classes know methods by keys.  A method of another name that has the
key of the one that is looked for is taken for it.
-/

namespace Lineage

open Relation (ReflTransGen)

namespace Graph

variable {α : Type} [DecidableEq α] {g : Graph α}

/-- A depth-first search goes to first successors for as long as they are new. -/
theorem isPrefix_visit {a : α} {line waiting seen : List α}
    (hline : (a :: line).IsChain fun b c => ∃ l, g.next b = some (c :: l))
    (hnew : (a :: line).Nodup) (hseen : ∀ b ∈ a :: line, b ∉ seen) :
    a :: line <+: g.visit .depthFirst (a :: waiting) seen := by
  have ha : a ∉ seen := hseen a List.mem_cons_self
  induction line generalizing a waiting seen with
  | nil =>
    cases hn : g.next a with
    | none =>
      rw [visit_cons_of_none ha hn]
      exact (List.prefix_cons_inj a).mpr List.nil_prefix
    | some l =>
      rw [visit_cons_of_some ha hn]
      exact (List.prefix_cons_inj a).mpr List.nil_prefix
  | cons b line ih =>
    obtain ⟨⟨l, hn⟩, hrest⟩ := List.isChain_cons_cons.mp hline
    have hseen' : ∀ c ∈ b :: line, c ∉ a :: seen := by
      intro c hc hmem
      rcases List.mem_cons.mp hmem with rfl | hmem
      · exact (List.nodup_cons.mp hnew).1 hc
      · exact hseen c (List.mem_cons_of_mem a hc) hmem
    rw [visit_cons_of_some ha hn]
    exact (List.prefix_cons_inj a).mpr (ih hrest (List.nodup_cons.mp hnew).2 hseen'
      (hseen' b List.mem_cons_self))

end Graph

namespace Hierarchy

open Resolution (Declares)

variable {h : Hierarchy} {r d : MemberRef} {cls : String}

/-! ## Superclasses -/

def superclass? (h : Hierarchy) (name : String) : Option String :=
  (h.class? name).bind ClassNode.superName

/-- The names start at a class, each is the superclass of the one before, and
none comes twice. -/
structure SuperclassLine (h : Hierarchy) (start : String) (line : List String) : Prop where
  head : line.head? = some start
  chain : line.IsChain fun a b => h.superclass? a = some b
  nodup : line.Nodup

theorem exists_next_of_superclass? {a b : String} (hs : h.superclass? a = some b) :
    ∃ l, h.supertypeGraph.next a = some (b :: l) := by
  obtain ⟨c, hc, hsuper⟩ := Option.bind_eq_some_iff.mp hs
  refine ⟨c.interfaces, ?_⟩
  show (h.class? a).map ClassNode.supertypes = some (b :: c.interfaces)
  rw [hc, Option.map_some, ClassNode.supertypes, hsuper]
  rfl

/-- The superclasses come first. -/
theorem SuperclassLine.isPrefix {line : List String} (hl : h.SuperclassLine cls line) :
    line <+: h.supertypeGraph.depthFirst cls := by
  obtain ⟨rest, rfl⟩ := List.head?_eq_some_iff.mp hl.head
  refine Graph.isPrefix_visit (hl.chain.imp fun _ _ => exists_next_of_superclass?) hl.nodup ?_
  exact fun _ _ => List.not_mem_nil

/-! ## Declarations -/

/-- What a class answers that is asked for the method. -/
def declaredIn? (h : Hierarchy) (r : MemberRef) (cls : String) : Option MemberRef :=
  (h.method? (r.withOwner cls)).map fun _ => r.withOwner cls

theorem declaration?_eq_findSome? (h : Hierarchy) (r : MemberRef) :
    h.declaration? r = (h.supertypeGraph.depthFirst r.owner).findSome? (h.declaredIn? r) := by
  rw [declaration?]
  generalize h.supertypeGraph.depthFirst r.owner = names
  induction names with
  | nil => rfl
  | cons a names ih =>
    rw [List.map_cons, List.find?_cons, List.findSome?_cons, ih, declaredIn?]
    cases h.method? (r.withOwner a) <;> rfl

theorem declaredIn?_eq_some_iff (hk : Keyed h)
    (hname : ∀ m, h.method? (r.withOwner cls) = some m → m.name = r.name) :
    h.declaredIn? r cls = some d ↔ Declares h (r.withOwner cls) ∧ d = r.withOwner cls := by
  rw [declaredIn?, Option.map_eq_some_iff]
  constructor
  · intro hd
    obtain ⟨m, hm, rfl⟩ := hd
    obtain ⟨howner, hkey⟩ := hk.slot_eq hm
    exact ⟨⟨m, hm, eq_of_key howner (hname m hm) hkey⟩, rfl⟩
  · intro hd
    obtain ⟨⟨m, hm, _⟩, rfl⟩ := hd
    exact ⟨m, hm, rfl⟩

/-- The search for a declaration ends, having gone through the names that can be
reached, each at most once, up to the first class that answers.  If no method of
another name has the key of the one that is looked for, it finds nothing just when
no class that can be reached declares the method, and otherwise one that does;
and this is the first of the owner and its superclasses to declare it, if one of
them does. -/
theorem declaration?_first (hk : Keyed h) (r : MemberRef)
    (hnames : ∀ a m, ReflTransGen h.supertypeGraph.Edge r.owner a →
      h.method? (r.withOwner a) = some m → m.name = r.name) :
    (∃ walked asked, Graph.Walks h.supertypeGraph [] [r.owner] walked ∧ walked.Nodup ∧
      (∀ a, a ∈ walked ↔ ReflTransGen h.supertypeGraph.Edge r.owner a) ∧ asked <+: walked ∧
      Graph.Seeks h.supertypeGraph (h.declaredIn? r) [] [r.owner] asked (h.declaration? r)) ∧
    (h.declaration? r = none ↔
      ∀ a, ReflTransGen h.supertypeGraph.Edge r.owner a → ¬ Declares h (r.withOwner a)) ∧
    (∀ d, h.declaration? r = some d → ∃ a, d = r.withOwner a ∧
      ReflTransGen h.supertypeGraph.Edge r.owner a ∧ Declares h d) ∧
    ∀ before cls, h.SuperclassLine r.owner (before ++ [cls]) → Declares h (r.withOwner cls) →
      (∀ b ∈ before, ¬ Declares h (r.withOwner b)) →
        h.declaration? r = some (r.withOwner cls) := by
  have hreach : ∀ a, a ∈ h.supertypeGraph.depthFirst r.owner ↔
      ReflTransGen h.supertypeGraph.Edge r.owner a := fun _ => Graph.mem_depthFirst_iff
  have hanswer : ∀ a ∈ h.supertypeGraph.depthFirst r.owner, ∀ d,
      h.declaredIn? r a = some d ↔ Declares h (r.withOwner a) ∧ d = r.withOwner a :=
    fun a ha _ => declaredIn?_eq_some_iff hk fun m => hnames a m ((hreach a).mp ha)
  have hwalks := Graph.walks_visit h.supertypeGraph [r.owner] []
  obtain ⟨asked, hseeks, hinitial, _⟩ := hwalks.exists_seeks (h.declaredIn? r)
  rw [declaration?_eq_findSome?]
  refine ⟨⟨_, asked, hwalks, Graph.nodup_visit _ _ _ _, hreach, hinitial, hseeks⟩, ?_,
    fun d hd => ?_, fun before cls hline hcls hbefore => ?_⟩
  · rw [Graph.findSome?_eq_none_iff_of_forall hanswer]
    constructor
    · exact fun hnone a ha hdeclares => hnone a ((hreach a).mpr ha) _ ⟨hdeclares, rfl⟩
    · exact fun hnone a ha _ hd => hnone a ((hreach a).mp ha) hd.1
  · obtain ⟨before, a, after, hsplit, ⟨hdeclares, rfl⟩, _⟩ :=
      (Graph.findSome?_eq_some_iff_of_forall hanswer).mp hd
    exact ⟨a, rfl, (hreach a).mp (by rw [hsplit]; simp), hdeclares⟩
  · obtain ⟨after, hafter⟩ := hline.isPrefix
    rw [List.append_assoc, List.singleton_append] at hafter
    exact (Graph.findSome?_eq_some_iff_of_forall hanswer).mpr
      ⟨before, cls, after, hafter.symm, ⟨hcls, rfl⟩, fun b hb _ hd => hbefore b hb hd.1⟩

end Hierarchy

namespace Resolution.Sample

open Hierarchy (Keyed SuperclassLine)

/-- A class whose second superclass declares a method and inherits from the class
in turn.  An interface of the class declares the method, too. -/
def winding : ClassPath :=
  .afterRequests [] [.register (archive
    [plain "Child" (some "Mid") [.interface "Face"], plain "Mid" (some "Top") [],
      plain "Top" (some "Child") [run [.pub] [.op 0xB1]],
      plain "Face" none [run [.pub] [.op 0xB1]]]) true]

/-- The superclasses are gone through before the interface. -/
theorem declaration?_winding : Keyed winding.hierarchy ∧
    (∀ a m, ReflTransGen winding.hierarchy.supertypeGraph.Edge "Child" a →
      winding.hierarchy.method? ⟨a, "run", "()V"⟩ = some m → m.name = "run") ∧
    winding.hierarchy.SuperclassLine "Child" ["Child", "Mid", "Top"] ∧
    Declares winding.hierarchy ⟨"Top", "run", "()V"⟩ ∧
    (∀ b ∈ ["Child", "Mid"], ¬ Declares winding.hierarchy ⟨b, "run", "()V"⟩) ∧
    winding.hierarchy.declaration? ⟨"Child", "run", "()V"⟩ = some ⟨"Top", "run", "()V"⟩ := by
  have hkeyed : Keyed winding.hierarchy :=
    (ClassPath.asRead_afterRequests _ _ : winding.hierarchy.AsRead).keyed
  have hall : ∀ c ∈ winding.hierarchy.classes.values, ∀ m ∈ c.methods.values, m.name = "run" := by
    decide +kernel
  have hnames : ∀ a m, ReflTransGen winding.hierarchy.supertypeGraph.Edge "Child" a →
      winding.hierarchy.method? ⟨a, "run", "()V"⟩ = some m → m.name = "run" := by
    intro a m _ hm
    obtain ⟨c, hc, hcm⟩ := Hierarchy.method?_eq_some.mp hm
    exact hall c (mem_values_iff.mpr ⟨_, hc⟩) m (mem_values_iff.mpr ⟨_, hcm⟩)
  have hline : winding.hierarchy.SuperclassLine "Child" ["Child", "Mid", "Top"] :=
    { head := rfl, chain := by decide +kernel, nodup := by decide }
  have htop : Declares winding.hierarchy ⟨"Top", "run", "()V"⟩ := by
    have hany : (winding.hierarchy.method? ⟨"Top", "run", "()V"⟩).any
        (·.ref = ⟨"Top", "run", "()V"⟩) := by decide +kernel
    obtain ⟨m, hm, href⟩ := (Option.any_eq_true _ _).mp hany
    exact ⟨m, hm, of_decide_eq_true href⟩
  have hbelow : ∀ b ∈ ["Child", "Mid"], ¬ Declares winding.hierarchy ⟨b, "run", "()V"⟩ := by
    intro b hb hdeclares
    obtain ⟨m, hm, _⟩ := hdeclares
    have hnone : ∀ b ∈ ["Child", "Mid"],
        winding.hierarchy.method? ⟨b, "run", "()V"⟩ = none := by decide +kernel
    rw [hnone b hb] at hm
    cases hm
  obtain ⟨_, _, _, hfirst⟩ := Hierarchy.declaration?_first hkeyed ⟨"Child", "run", "()V"⟩ hnames
  exact ⟨hkeyed, hnames, hline, htop, hbelow, hfirst ["Child", "Mid"] "Top" hline htop hbelow⟩

/-- Between a bridge and the method that it forwards to, a class with a method of
another name that has the same key. -/
def screened : ClassPath :=
  .afterRequests [] [.register (archive
    [plain "Base" none [returning [.pub] "m" "()La(I)Lb;"],
      plain "Mid" (some "Base") [returning [.pub] "m()La" "(I)Lb;"],
      plain "Child" (some "Mid")
        [.method
          { access := .ofModifiers [.pub, .bridge, .synthetic]
            name := "m"
            descriptor := "()La(I)Lb;"
            signature := none
            body := some
              [.load .reference 0, .invoke 0xB7 ⟨"Mid", "m", "()La(I)Lb;"⟩, .op 0xB0] }]]) true]

/-- The search ends at the class between, which does not declare the method, though
the class above does, and the bridge goes on pointing there. -/
theorem declaration?_screened :
    screened.hierarchy.declaration? ⟨"Mid", "m", "()La(I)Lb;"⟩ =
      some ⟨"Mid", "m", "()La(I)Lb;"⟩ ∧
    ¬ Declares screened.hierarchy ⟨"Mid", "m", "()La(I)Lb;"⟩ ∧
    screened.hierarchy.SuperclassLine "Mid" ["Mid", "Base"] ∧
    Declares screened.hierarchy ⟨"Base", "m", "()La(I)Lb;"⟩ ∧
    ((start screened).resolve .asWritten "Child").path.hierarchy.aim?
      ⟨"Child", "m", "()La(I)Lb;"⟩ = some ⟨"Mid", "m", "()La(I)Lb;"⟩ := by
  have hread : screened.hierarchy.AsRead := ClassPath.asRead_afterRequests _ _
  have hmid : (screened.hierarchy.method? ⟨"Mid", "m", "()La(I)Lb;"⟩).any
      (·.ref = ⟨"Mid", "m()La", "(I)Lb;"⟩) := by decide +kernel
  have hbase : (screened.hierarchy.method? ⟨"Base", "m", "()La(I)Lb;"⟩).any
      (·.ref = ⟨"Base", "m", "()La(I)Lb;"⟩) := by decide +kernel
  obtain ⟨n, hn, hnref⟩ := (Option.any_eq_true _ _).mp hmid
  obtain ⟨m, hm, href⟩ := (Option.any_eq_true _ _).mp hbase
  have hfound : screened.hierarchy.declaration? ⟨"Mid", "m", "()La(I)Lb;"⟩ =
      some ⟨"Mid", "m", "()La(I)Lb;"⟩ :=
    Hierarchy.declaration?_of_isSome (Option.isSome_of_eq_some hn)
  have hb : Bounces screened.hierarchy ⟨"Child", "m", "()La(I)Lb;"⟩
      ⟨"Mid", "m", "()La(I)Lb;"⟩ := bounces_of_any (by decide +kernel)
  have hu : ¬ screened.hierarchy.isResolved "Child" :=
    Bool.eq_false_iff.mp (hread.isResolved_eq_false "Child")
  refine ⟨hfound, ?_, { head := rfl, chain := by decide +kernel, nodup := by decide },
    ⟨m, hm, of_decide_eq_true href⟩, ?_⟩
  · intro hdeclares
    obtain ⟨d, hd, hdref⟩ := hdeclares
    cases hd.symm.trans hn
    exact absurd ((of_decide_eq_true hnref).symm.trans hdref) (by decide)
  · rw [aim?_resolve (r := start screened) (q := ⟨"Child", "m", "()La(I)Lb;"⟩) hread.keyed
      .asWritten hu hb.aim?]
    exact congrArg some (destination_of_isSome (Option.isSome_of_eq_some hn))

end Resolution.Sample
end Lineage
