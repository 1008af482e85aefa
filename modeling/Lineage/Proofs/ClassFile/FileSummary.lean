import Lineage.Proofs.ClassFile.FileLayout

/-!
From the layout of a file to its summary.

The bodies of a valid file are decoded one by one, and the bootstrap methods
that their dynamic calls name are looked up once each.  Neither order nor
repetition matters for which methods lambdas run.
-/

namespace Lineage
namespace ClassFile

theorem mem_bootstrapNumbers {bodies : List (List Instruction)} {n : UInt16} :
    n ∈ bootstrapNumbers bodies ↔
      ∃ name descriptor, .invokeDynamic n name descriptor ∈ bodies.flatten := by
  rw [bootstrapNumbers, List.mem_eraseDups, List.mem_filterMap]
  constructor
  · rintro ⟨i, hi, hn⟩
    split at hn
    next bootstrap name descriptor =>
      obtain rfl := Option.some.inj hn
      exact ⟨name, descriptor, hi⟩
    next => cases hn
  · rintro ⟨name, descriptor, hi⟩
    exact ⟨_, hi, rfl⟩

/-! ## Bootstrap methods -/

namespace BootstrapMethod

variable {t : ConstantTable}

theorem implementation?_pool {b : BootstrapMethod}
    (hb : ∀ index ∈ b.handle :: b.arguments, t.refers index) :
    b.implementation? t.pool = .ok (b.runs? t) := by
  have hhandle := ConstantTable.methodHandle?_pool (hb b.handle List.mem_cons_self)
  rw [implementation?, runs?, hhandle]
  cases t.handle? b.handle with
  | none => rfl
  | some factory =>
    simp only [bind, Except.bind, Option.bind_some]
    by_cases hmakes : makesLambda factory b.arguments.length = true
    · rw [if_pos hmakes, if_pos hmakes]
      match harguments : b.arguments with
      | [] => rfl
      | [_] => rfl
      | _ :: implementation :: rest =>
        refine ConstantTable.methodHandle?_pool (hb implementation ?_)
        rw [harguments]
        exact List.mem_cons_of_mem _ (List.mem_cons_of_mem _ List.mem_cons_self)
    · rw [if_neg hmakes, if_neg hmakes]

theorem implementations_pool {bs : List BootstrapMethod}
    (h : ∀ b ∈ bs, ∀ index ∈ b.handle :: b.arguments, t.refers index) :
    implementations t.pool bs = .ok (bs.filterMap (runs? t)) := by
  induction bs with
  | nil => rfl
  | cons b bs ih =>
    rw [implementations, implementation?_pool (h b List.mem_cons_self),
      ih fun c hc => h c (List.mem_cons_of_mem b hc)]
    cases hb : b.runs? t with
    | none =>
      rw [List.filterMap_cons_none hb]
      rfl
    | some implementation =>
      rw [List.filterMap_cons_some hb]
      rfl

end BootstrapMethod

/-! ## Files -/

namespace File

variable {f : File}

/-- The bodies of all methods, decoded. -/
def decoded (f : File) : List (List Instruction) :=
  f.methods.map (MemberInfo.instructions f.table)

theorem decodeBodies_layout {t : ConstantTable} {ms : List MemberInfo}
    (h : ∀ m ∈ ms, ∀ c ∈ m.code?, (Instruction.decode t.pool c.code).isOk) :
    decodeBodies t.pool (ms.map (MemberInfo.methodLayout t))
      = .ok (ms.map (MemberInfo.instructions t)) := by
  induction ms with
  | nil => rfl
  | cons m ms ih =>
    rw [List.map_cons, decodeBodies, ih fun n hn => h n (List.mem_cons_of_mem m hn), List.map_cons,
      MemberInfo.methodLayout, MemberInfo.instructions]
    cases hcode : m.code? with
    | none => rfl
    | some c =>
      obtain ⟨body, hbody⟩ := exists_of_isOk (h m List.mem_cons_self c hcode)
      simp only [Option.map_some, hbody]
      rfl

/-- The members that lambdas run, as they are looked up. -/
def lambdaRuns (f : File) : List MemberRef :=
  ((bootstrapNumbers f.decoded).filterMap fun n => f.bootstraps[n.toNat]?).filterMap
    (BootstrapMethod.runs? f.table)

theorem lambdaTargets_layout (hf : f.Valid) :
    lambdaTargets f.table.pool f.bootstraps f.decoded = .ok f.lambdaRuns := by
  refine BootstrapMethod.implementations_pool fun b hb => List.all_eq_true.mp (hf.handles b ?_)
  obtain ⟨n, _, hn⟩ := List.mem_filterMap.mp hb
  exact List.mem_of_getElem? hn

theorem contains_lambdaRuns (f : File) (member : MemberRef) :
    f.lambdaRuns.contains member = f.isLambdaTarget member := by
  rw [Bool.eq_iff_iff, List.contains_iff_mem, lambdaRuns, isLambdaTarget, List.any_eq_true,
    List.flatMap_def, List.mem_filterMap]
  simp only [List.mem_filterMap, mem_bootstrapNumbers, beq_iff_eq]
  constructor
  · rintro ⟨b, ⟨n, ⟨name, descriptor, hi⟩, hn⟩, hruns⟩
    exact ⟨_, hi, Option.bind_eq_some_iff.mpr ⟨b, hn, hruns⟩⟩
  · rintro ⟨i, hi, hruns⟩
    unfold lambda? at hruns
    split at hruns
    next n name descriptor =>
      obtain ⟨b, hn, hruns⟩ := Option.bind_eq_some_iff.mp hruns
      exact ⟨b, ⟨n, ⟨name, descriptor, hi⟩, hn⟩, hruns⟩
    next => cases hruns

theorem summary_methodLayout (f : File) (m : MemberInfo) :
    (m.methodLayout f.table).summary (f.table.className f.thisClass)
        (f.table.className? f.superClass) f.lambdaRuns (m.instructions f.table)
      = f.methodSummary m := by
  rw [MethodLayout.summary, methodSummary]
  simp only [MemberInfo.methodLayout, contains_lambdaRuns]

theorem summary_layout (hf : f.Valid) : f.layout.summary = .ok f.summary := by
  have hbodies : decodeBodies f.layout.pool f.layout.methods = .ok f.decoded :=
    decodeBodies_layout hf.bodies
  have htargets : lambdaTargets f.layout.pool f.layout.bootstraps f.decoded = .ok f.lambdaRuns :=
    lambdaTargets_layout hf
  have hfields : f.layout.fields.map FieldLayout.summary = f.summary.fields := by
    rw [layout, List.map_map]
    rfl
  have hmethods : (f.layout.methods.zip f.decoded).map (fun m =>
        m.1.summary f.layout.name f.layout.superName f.lambdaRuns m.2)
      = f.summary.methods := by
    rw [layout, decoded, List.zip_map', List.map_map]
    exact List.map_congr_left fun m _ => f.summary_methodLayout m
  rw [Layout.summary, hbodies]
  simp only [bind, Except.bind, htargets, hfields, hmethods]
  rfl

/-- A valid file is read as what it says. -/
theorem parse_eq_summary (hf : f.Valid) : parse f.encode = .ok f.summary := by
  rw [parse, (reads_encode hf).eq_ok]
  exact summary_layout hf

end File
end ClassFile
end Lineage
