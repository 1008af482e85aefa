import Lineage.Assembly.Sketch
import Lineage.Proofs.Assembly.Constants

/-!
What a sketch asks for is in its pool.  Declarations are numbered by the lambda
sites before them, and the numbering neither drops nor adds one, so every
member, body and site of a sketch has its constants.
-/

namespace Lineage
namespace Assembly

theorem exists_mem_numberedDeclarations {d : Declaration} {ds : List Declaration}
    (h : d ∈ ds) (sites : Nat) : ∃ n, (n, d) ∈ numberedDeclarations sites ds := by
  induction ds generalizing sites with
  | nil => cases h
  | cons e ds ih =>
    rw [numberedDeclarations]
    obtain rfl | h := List.mem_cons.mp h
    · exact ⟨sites, List.mem_cons_self⟩
    · obtain ⟨n, hn⟩ := ih h (sites + e.lambdas.length)
      exact ⟨n, List.mem_cons_of_mem _ hn⟩

theorem exists_mem_numbered {s : CodeStep} {steps : List CodeStep} (h : s ∈ steps)
    (sites : Nat) : ∃ n, (n, s) ∈ numbered sites steps := by
  induction steps generalizing sites with
  | nil => cases h
  | cons t steps ih =>
    rw [numbered]
    obtain rfl | h := List.mem_cons.mp h
    · exact ⟨sites, List.mem_cons_self⟩
    · obtain ⟨n, hn⟩ := ih h (sites + t.lambda?.toList.length)
      exact ⟨n, List.mem_cons_of_mem _ hn⟩

namespace Sketch

variable {c : Sketch}

theorem mem_pool {s : Symbol} (h : s ∈ c.requests) : s ∈ c.pool.symbols :=
  SymbolPool.mem_ofRequests.mpr ⟨s, h, s.mem_closure⟩

theorem mem_pool_of_declaration {n : Nat} {d : Declaration}
    (hd : (n, d) ∈ numberedDeclarations 0 c.declarations) {s : Symbol} (hs : s ∈ d.requests n) :
    s ∈ c.pool.symbols := by
  refine mem_pool ?_
  unfold requests
  have hflat : s ∈ (numberedDeclarations 0 c.declarations).flatMap fun d => d.2.requests d.1 :=
    List.mem_flatMap.mpr ⟨(n, d), hd, hs⟩
  exact List.mem_append_left _ (List.mem_append_left _ (List.mem_append_right _ hflat))

theorem className_mem_pool : .className c.name ∈ c.pool.symbols :=
  mem_pool (by simp [requests])

theorem superName_mem_pool : ∀ n ∈ c.superName, .className n ∈ c.pool.symbols := by
  intro n hn
  refine mem_pool ?_
  simp [requests, Option.mem_def.mp hn]

theorem code_mem_pool : .utf8 "Code" ∈ c.pool.symbols := mem_pool (by simp [requests])

theorem signature_mem_pool : .utf8 "Signature" ∈ c.pool.symbols := mem_pool (by simp [requests])

theorem bootstrapMethods_mem_pool (h : c.lambdas.isEmpty = false) :
    .utf8 "BootstrapMethods" ∈ c.pool.symbols :=
  mem_pool (by simp [requests, h])

theorem interface_mem_pool : ∀ n ∈ c.interfaces, .className n ∈ c.pool.symbols := by
  intro n hn
  obtain ⟨d, hd, hdn⟩ := List.mem_filterMap.mp hn
  obtain ⟨k, hk⟩ := exists_mem_numberedDeclarations hd 0
  cases d <;> cases hdn
  exact mem_pool_of_declaration hk List.mem_cons_self

theorem signatureText_mem_pool : ∀ t ∈ c.signature, .utf8 t ∈ c.pool.symbols := by
  intro t ht
  obtain ⟨d, hd, hdt⟩ := List.mem_filterMap.mp (List.mem_of_getLast? ht)
  obtain ⟨k, hk⟩ := exists_mem_numberedDeclarations hd 0
  cases d <;> cases hdt
  exact mem_pool_of_declaration hk List.mem_cons_self

theorem field_mem_pool {f : FieldSketch} (hf : f ∈ c.fields) :
    .utf8 f.name ∈ c.pool.symbols ∧ .utf8 f.descriptor ∈ c.pool.symbols ∧
      ∀ t ∈ f.signature, .utf8 t ∈ c.pool.symbols := by
  obtain ⟨d, hd, hdf⟩ := List.mem_filterMap.mp hf
  obtain ⟨k, hk⟩ := exists_mem_numberedDeclarations hd 0
  cases d <;> cases hdf
  refine ⟨mem_pool_of_declaration hk ?_, mem_pool_of_declaration hk ?_, fun t ht =>
    mem_pool_of_declaration hk ?_⟩
  · exact List.mem_cons_self
  · exact List.mem_cons_of_mem _ List.mem_cons_self
  · simp [Declaration.requests, Option.mem_def.mp ht]

theorem mem_methods {m : Nat × MethodSketch} :
    m ∈ c.methods ↔ (m.1, .method m.2) ∈ numberedDeclarations 0 c.declarations := by
  rw [methods, List.mem_filterMap]
  constructor
  · rintro ⟨⟨n, d⟩, hd, hdm⟩
    cases d <;> cases hdm
    exact hd
  · intro h
    exact ⟨(m.1, .method m.2), h, rfl⟩

theorem method_mem_pool {m : Nat × MethodSketch} (hm : m ∈ c.methods) :
    .utf8 m.2.name ∈ c.pool.symbols ∧ .utf8 m.2.descriptor ∈ c.pool.symbols ∧
      ∀ t ∈ m.2.signature, .utf8 t ∈ c.pool.symbols := by
  have hd := mem_methods.mp hm
  refine ⟨mem_pool_of_declaration hd ?_, mem_pool_of_declaration hd ?_, fun t ht =>
    mem_pool_of_declaration hd ?_⟩
  · simp [Declaration.requests]
  · simp [Declaration.requests]
  · simp [Declaration.requests, Option.mem_def.mp ht]

theorem bodyRequests_subset_pool {m : Nat × MethodSketch} (hm : m ∈ c.methods) :
    bodyRequests m.1 (m.2.body.getD []) ⊆ c.pool.symbols := fun _ hs =>
  mem_pool_of_declaration (mem_methods.mp hm) (List.mem_append_left _ hs)

/-- The factory and the bootstrap arguments of a site are asked for by the step
that it comes from. -/
theorem lambda_mem_pool {l : LambdaSite} (hl : l ∈ c.lambdas) :
    l.factory ∈ c.pool.symbols ∧ l.arguments ⊆ c.pool.symbols := by
  obtain ⟨d, hd, hdl⟩ := List.mem_flatMap.mp hl
  obtain ⟨k, hk⟩ := exists_mem_numberedDeclarations hd 0
  cases d with
  | method m =>
    obtain ⟨s, hs, hsl⟩ := List.mem_filterMap.mp hdl
    obtain ⟨n, hn⟩ := exists_mem_numbered hs k
    have hbody : bodyRequests k (m.body.getD []) ⊆ c.pool.symbols := fun r hr =>
      mem_pool_of_declaration hk (List.mem_append_left _ hr)
    have hstep : s.requests n ⊆ c.pool.symbols := fun r hr =>
      hbody (List.mem_flatMap.mpr ⟨(n, s), hn, hr⟩)
    cases s <;> cases hsl
    refine ⟨hstep List.mem_cons_self, fun a ha => hstep ?_⟩
    exact List.mem_append_left _ (List.mem_cons_of_mem _ ha)
  | interface | signature | field => cases hdl

end Sketch
end Assembly
end Lineage
