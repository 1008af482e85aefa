import Lineage.Proofs.Assembly.Layout

/-!
Parsing undoes assembling.

What a sketch says is what is read from its file: the names, flags, signatures
and members as they were declared, and for each method what its written body is
good for.
-/

namespace Lineage
namespace Assembly

open ClassFile (Candidate FieldSummary Instruction MethodSummary Summary)

def FieldSketch.summary (f : FieldSketch) : FieldSummary :=
  { name := f.name, descriptor := f.descriptor, access := f.access, signature := f.signature }

namespace Sketch

/-- What method `m` of `c` is to be read as, when `sites` lambda sites come
before it.  It is a lambda target when a lambda of the class has it as its
implementation, and the shapes are those of the written instructions. -/
def methodSummary (c : Sketch) (sites : Nat) (m : MethodSketch) : MethodSummary :=
  let written : Candidate :=
    { access := m.access, descriptor := m.descriptor,
      code := instructions sites (m.body.getD []) }
  let lambdaTarget : Bool :=
    decide (∃ l ∈ c.lambdas, l.implementation = ⟨c.name, m.name, m.descriptor⟩)
  { name := m.name
    descriptor := m.descriptor
    access := m.access
    signature := m.signature
    lambdaTarget
    bouncer := written.bounceTarget? c.name c.superName lambdaTarget
    getterOf := written.getterField? c.name }

/-- What is to be read from the file of the sketch. -/
def summary (c : Sketch) : Summary :=
  { name := c.name
    superName := c.superName
    interfaces := c.interfaces
    access := c.access
    signature := c.signature
    fields := c.fields.map FieldSketch.summary
    methods := c.methods.map fun m => c.methodSummary m.1 m.2 }

variable {c : Sketch}

/-! ## Bodies -/

theorem bodiesFrom_declarations :
    bodiesFrom 0 c.declarations
      = c.methods.map fun m => instructions m.1 (m.2.body.getD []) := by
  rw [bodiesFrom, methods, List.map_filterMap]
  congr 1
  funext d
  rw [Option.map_map]
  rfl

theorem decode_body (h : c.Fits) {m : Nat × MethodSketch} (hm : m ∈ c.methods)
    {steps : List CodeStep} (hbody : m.2.body = some steps) :
    Instruction.decode c.pool.loaded (encodeBody c.pool m.1 steps)
      = .ok (instructions m.1 steps) := by
  have hsteps := h.steps m hm
  have hrequests := bodyRequests_subset_pool hm
  rw [hbody] at hsteps hrequests
  exact decode_encodeBody h.loadable hsteps hrequests

theorem decodeBodies_layout (h : c.Fits) {ms : List (Nat × MethodSketch)} (hms : ms ⊆ c.methods) :
    ClassFile.decodeBodies c.pool.loaded (ms.map fun m => m.2.layout c.pool m.1)
      = .ok (ms.map fun m => instructions m.1 (m.2.body.getD [])) := by
  induction ms with
  | nil => rfl
  | cons m ms ih =>
    obtain ⟨hm, hms⟩ := List.cons_subset.mp hms
    rw [List.map_cons, ClassFile.decodeBodies, ih hms, MethodSketch.layout]
    cases hbody : m.2.body with
    | none =>
      rw [List.map_cons, hbody]
      rfl
    | some steps =>
      have hdecode := decode_body h hm hbody
      simp only [Option.map_some, hdecode]
      rw [List.map_cons, hbody]
      rfl

/-! ## Lambda targets -/

theorem lambdaTargets_layout (h : c.Fits) :
    ClassFile.lambdaTargets c.pool.loaded c.layout.bootstraps (bodiesFrom 0 c.declarations)
      = .ok (c.lambdas.map LambdaSite.implementation) := by
  have hlen : c.layout.bootstraps.length = c.lambdas.length := List.length_map _
  have hsites : ∀ l ∈ c.lambdas, l.factory ∈ c.pool.symbols ∧ l.arguments ⊆ c.pool.symbols :=
    fun l hl => lambda_mem_pool hl
  rw [ClassFile.lambdaTargets, filterMap_bootstrapNumbers hlen (hlen ▸ h.lambdas)]
  exact implementations_map_bootstrap h.loadable hsites

theorem summary_layout_method (m : Nat × MethodSketch) :
    (m.2.layout c.pool m.1).summary c.name c.superName (c.lambdas.map LambdaSite.implementation)
        (instructions m.1 (m.2.body.getD []))
      = c.methodSummary m.1 m.2 := by
  have htarget : (c.lambdas.map LambdaSite.implementation).contains
        ⟨c.name, m.2.name, m.2.descriptor⟩
      = decide (∃ l ∈ c.lambdas, l.implementation = ⟨c.name, m.2.name, m.2.descriptor⟩) := by
    rw [List.contains_eq_mem]
    simp only [List.mem_map]
  unfold ClassFile.MethodLayout.summary methodSummary
  simp only [MethodSketch.layout, htarget]

theorem summary_layout (h : c.Fits) : c.layout.summary = .ok c.summary := by
  have hbodies : ClassFile.decodeBodies c.layout.pool c.layout.methods
      = .ok (bodiesFrom 0 c.declarations) := by
    rw [bodiesFrom_declarations]
    exact decodeBodies_layout h (List.Subset.refl _)
  have hmethods : (c.layout.methods.zip (bodiesFrom 0 c.declarations)).map (fun m =>
        m.1.summary c.layout.name c.layout.superName (c.lambdas.map LambdaSite.implementation) m.2)
      = c.summary.methods := by
    rw [bodiesFrom_declarations, layout, List.zip_map', List.map_map]
    exact List.map_congr_left fun m _ => summary_layout_method m
  have hfields : c.layout.fields.map ClassFile.FieldLayout.summary = c.summary.fields := by
    rw [layout, List.map_map]
    rfl
  have htargets : ClassFile.lambdaTargets c.layout.pool c.layout.bootstraps
      (bodiesFrom 0 c.declarations) = .ok (c.lambdas.map LambdaSite.implementation) :=
    lambdaTargets_layout h
  rw [ClassFile.Layout.summary, hbodies]
  simp only [bind, Except.bind, htargets, hmethods, hfields]
  rfl

/-- The file of a sketch that fits the format is read as what the sketch says.
The flag of a method declared abstract or native is one of those read. -/
theorem parse_assemble (c : Sketch) (h : c.Fits) :
    ClassFile.parse c.assemble = .ok c.summary := by
  rw [ClassFile.parse, (reads_assemble h).eq_ok]
  exact summary_layout h

/-- A class with a getter, a body that makes a lambda, and a method without a
body. -/
def gauge : Sketch :=
  { name := "a/Größe"
    superName := some "java/lang/Object"
    access := ⟨0x0421⟩
    declarations :=
      [ .interface "a/Shape"
      , .signature "Ljava/lang/Object;La/Shape;"
      , .field { access := ⟨0x02⟩, name := "width", descriptor := "I", signature := some "TT;" }
      , .abstractMethod ⟨0x01⟩ "draw" "()V"
      , .method
          { access := ⟨0x01⟩, name := "width", descriptor := "()I", signature := none
            body := some
              [.load .reference 0, .getField ⟨"a/Größe", "width", "I"⟩, .op 0xAC] }
      , .method
          { access := ⟨0x01⟩, name := "later", descriptor := "()V", signature := none
            body := some
              [ .lambda
                  { alternative := true
                    name := "run"
                    descriptor := "()Ljava/lang/Runnable;"
                    erased := "()V"
                    implementation := ⟨"a/Größe", "now", "()V"⟩
                    kind := LambdaSite.staticKind
                    instantiated := "()V" }
              , .invoke CodeStep.invokeInterface ⟨"java/lang/Runnable", "run", "()V"⟩
              , .op 0xB1 ] }
      , .method
          { access := ⟨0x100A⟩, name := "now", descriptor := "()V", signature := none
            body := some [.op 0xB1] } ] }

theorem fits_gauge : gauge.Fits where
  constants := by decide +kernel
  texts := by decide +kernel
  interfaces := by decide
  fields := by decide
  methods := by decide
  lambdas := by decide
  steps := by decide +kernel
  codes := by decide +kernel

theorem parse_assemble_gauge :
    gauge.Fits ∧ ClassFile.parse gauge.assemble = .ok gauge.summary ∧
      gauge.summary.methods.map (fun m => (m.name, m.access.bits, m.lambdaTarget, m.getterOf)) =
        [("draw", 0x0401, false, none), ("width", 0x01, false, some "width"),
          ("later", 0x01, false, none), ("now", 0x100A, true, none)] :=
  ⟨fits_gauge, parse_assemble gauge fits_gauge, by decide +kernel⟩

end Sketch
end Assembly
end Lineage
