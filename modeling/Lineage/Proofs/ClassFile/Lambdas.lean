import Lineage.Assembly.Sketch
import Lineage.Proofs.ClassFile.Bouncers
import Lineage.Proofs.ClassFile.FileSummary
import Lineage.Proofs.ClassFile.Getters

/-!
Lambda bodies and bouncers, as class files have them.

A method is run by lambdas when some body of the class calls a bootstrap entry whose
factory makes lambdas and whose second argument is a handle to the method.  Which body
calls it, and how often, does not matter.  Any other method that only forwards is a
bouncer.
-/

namespace Lineage
namespace ClassFile

/-! ## Bootstrap entries -/

namespace BootstrapMethod

/-- The entry makes lambdas that run `member`. -/
structure Runs (pool : Pool) (b : BootstrapMethod) (member : MemberRef) : Prop where
  factory : ∃ factory, pool.methodHandle? b.handle = .ok (some factory) ∧
    factory.owner = "java/lang/invoke/LambdaMetafactory" ∧
    (factory.name = "metafactory" ∧ b.arguments.length = 3 ∨
      factory.name = "altMetafactory" ∧ 3 ≤ b.arguments.length)
  implementation : ∃ index, b.arguments[1]? = some index ∧
    pool.methodHandle? index = .ok (some member)

theorem makesLambda_iff {factory : MemberRef} {n : Nat} :
    makesLambda factory n = true ↔ factory.owner = "java/lang/invoke/LambdaMetafactory" ∧
      (factory.name = "metafactory" ∧ n = 3 ∨ factory.name = "altMetafactory" ∧ 3 ≤ n) := by
  simp [makesLambda, lambdaFactory]

variable {pool : Pool}

theorem implementation?_eq_some_iff {b : BootstrapMethod} {member : MemberRef} :
    b.implementation? pool = .ok (some member) ↔ b.Runs pool member := by
  rw [implementation?]
  constructor
  · intro h
    cases hhandle : pool.methodHandle? b.handle with
    | error e => simp [hhandle, bind, Except.bind] at h
    | ok found =>
      cases found with
      | none => simp [hhandle, bind, Except.bind] at h
      | some factory =>
        simp only [hhandle, bind, Except.bind] at h
        split at h
        · next hmakes =>
          split at h
          · next first index rest harguments =>
            exact ⟨⟨factory, hhandle, makesLambda_iff.mp hmakes⟩, index, by rw [harguments]; rfl, h⟩
          · cases h
        · cases h
  · rintro ⟨⟨factory, hhandle, hmakes⟩, index, hindex, hmember⟩
    simp only [hhandle, bind, Except.bind]
    rw [if_pos (makesLambda_iff.mpr hmakes)]
    cases harguments : b.arguments with
    | nil =>
      rw [harguments] at hindex
      cases hindex
    | cons first rest =>
      rw [harguments] at hindex
      cases rest with
      | nil => cases hindex
      | cons _ rest =>
        cases hindex
        exact hmember

theorem mem_implementations {bs : List BootstrapMethod} {targets : List MemberRef}
    (h : implementations pool bs = .ok targets) (member : MemberRef) :
    member ∈ targets ↔ ∃ b ∈ bs, b.Runs pool member := by
  induction bs generalizing targets with
  | nil =>
    cases h
    simp
  | cons b bs ih =>
    rw [implementations] at h
    cases hb : b.implementation? pool with
    | error e => simp [hb, bind, Except.bind] at h
    | ok implementation =>
      cases hbs : implementations pool bs with
      | error e => simp [hb, hbs, bind, Except.bind] at h
      | ok rest =>
        simp only [hb, hbs, bind, Except.bind, Except.ok.injEq] at h
        subst h
        rw [List.mem_append, ih hbs, List.exists_mem_cons_iff, ← implementation?_eq_some_iff, hb]
        simp

end BootstrapMethod

/-! ## The methods that lambdas run -/

/-- Some body of the class makes lambdas that run `member`. -/
def Layout.RunsInLambda (layout : Layout) (member : MemberRef) : Prop :=
  ∃ m ∈ layout.methods, ∃ body, m.body layout.pool = .ok body ∧
    ∃ n name descriptor, .invokeDynamic n name descriptor ∈ body ∧
      ∃ b, layout.bootstraps[n.toNat]? = some b ∧ b.Runs layout.pool member

theorem exists_mem_flatten_iff {pool : Pool} {ms : List MethodLayout}
    {bodies : List (List Instruction)}
    (h : List.Forall₂ (fun m body => m.body pool = .ok body) ms bodies) (i : Instruction) :
    i ∈ bodies.flatten ↔ ∃ m ∈ ms, ∃ body, m.body pool = .ok body ∧ i ∈ body := by
  induction h with
  | nil => simp
  | @cons m body ms bodies hbody _ ih =>
    rw [List.flatten_cons, List.mem_append, ih, List.exists_mem_cons_iff, hbody]
    simp

theorem mem_lambdaTargets_iff {layout : Layout} {bodies : List (List Instruction)}
    {targets : List MemberRef} (hbodies : decodeBodies layout.pool layout.methods = .ok bodies)
    (h : lambdaTargets layout.pool layout.bootstraps bodies = .ok targets) (member : MemberRef) :
    member ∈ targets ↔ layout.RunsInLambda member := by
  rw [BootstrapMethod.mem_implementations h]
  simp only [List.mem_filterMap, mem_bootstrapNumbers,
    exists_mem_flatten_iff (forall₂_of_decodeBodies hbodies)]
  constructor
  · rintro ⟨b, ⟨n, ⟨name, descriptor, m, hm, body, hbody, hi⟩, hb⟩, hruns⟩
    exact ⟨m, hm, body, hbody, n, name, descriptor, hi, b, hb, hruns⟩
  · rintro ⟨m, hm, body, hbody, n, name, descriptor, hi, b, hb, hruns⟩
    exact ⟨b, ⟨n, ⟨name, descriptor, m, hm, body, hbody, hi⟩, hb⟩, hruns⟩

/-! ## What summaries say -/

/-- What the summary of a method says of its use in lambdas and of its shape. -/
structure TellsUse (layout : Layout) (m : MethodLayout) (said : MethodSummary) : Prop where
  name : said.name = m.name
  descriptor : said.descriptor = m.descriptor
  access : said.access = m.access
  lambdaTarget : said.lambdaTarget = true ↔
    layout.RunsInLambda ⟨layout.name, m.name, m.descriptor⟩
  bouncer : ∀ target, said.bouncer = some target ↔ said.lambdaTarget = false ∧
    ∃ body, m.body layout.pool = .ok body ∧
      Candidate.Bounces { access := m.access, descriptor := m.descriptor, code := body }
        layout.name layout.superName target

theorem tellsUse_summary {layout : Layout} {m : MethodLayout} {body : List Instruction}
    {targets : List MemberRef} (hbody : m.body layout.pool = .ok body)
    (htargets : ∀ member, member ∈ targets ↔ layout.RunsInLambda member) :
    TellsUse layout m (m.summary layout.name layout.superName targets body) where
  name := rfl
  descriptor := rfl
  access := rfl
  lambdaTarget := List.contains_iff_mem.trans (htargets _)
  bouncer target := by
    refine Candidate.bounceTarget?_eq_some_iff.trans (and_congr_right fun _ => ⟨fun h => ?_, ?_⟩)
    · exact ⟨body, hbody, h⟩
    · rintro ⟨body', hbody', h⟩
      cases hbody.symm.trans hbody'
      exact h

theorem exists_of_forall₂_of_mem {α β : Type} {R : α → β → Prop} {xs : List α} {ys : List β}
    (h : List.Forall₂ R xs ys) {y : β} (hy : y ∈ ys) : ∃ x ∈ xs, R x y := by
  induction h with
  | nil => cases hy
  | cons hxy _ ih =>
    obtain rfl | hy := List.mem_cons.mp hy
    · exact ⟨_, List.mem_cons_self, hxy⟩
    · obtain ⟨x, hx, hxy'⟩ := ih hy
      exact ⟨x, List.mem_cons_of_mem _ hx, hxy'⟩

/-- A class file that is read says of each method, in file order, whether lambdas of
the class run it and, if none does, what it forwards to. -/
theorem tellsUse_of_parse {bytes : Bytes} {s : Summary} (h : parse bytes = .ok s) :
    ∃ layout rest, Layout.read bytes = .ok (layout, rest) ∧ s.name = layout.name ∧
      s.superName = layout.superName ∧
      List.Forall₂ (TellsUse layout) layout.methods s.methods := by
  obtain ⟨layout, rest, hlayout, hsummary⟩ := parse_eq_ok h
  obtain ⟨bodies, targets, hbodies, htargets, rfl⟩ := summary_eq_ok hsummary
  refine ⟨layout, rest, hlayout, rfl, rfl, ?_⟩
  exact forall₂_map_zip (forall₂_of_decodeBodies hbodies) fun m body hbody =>
    tellsUse_summary hbody (mem_lambdaTargets_iff hbodies htargets)

namespace Sample

open Assembly (CodeStep Declaration LambdaSite Sketch)

def bodied (access : UInt16) (name descriptor : String) (body : List CodeStep) : Declaration :=
  .method { access := ⟨access⟩, name, descriptor, signature := none, body := some body }

/-- A class with a bridge, and with a method of the same shape that is run by the
lambda which a later method makes. -/
def task : Sketch :=
  { name := "a/Task"
    superName := some "java/lang/Object"
    access := ⟨0x21⟩
    declarations :=
      [ bodied 0x1041 "put" "(Ljava/lang/Object;)V"
          [.load .reference 0, .load .reference 1, .checkCast "java/lang/String",
            .invoke 0xB6 ⟨"a/Task", "put", "(Ljava/lang/String;)V"⟩, .op 0xB1]
      , bodied 0x1002 "lambda$later$0" "()V"
          [.load .reference 0, .invoke 0xB6 ⟨"a/Task", "work", "()V"⟩, .op 0xB1]
      , bodied 0x01 "later" "()Ljava/lang/Runnable;"
          [ .load .reference 0
          , .lambda
              { alternative := false
                name := "run"
                descriptor := "(La/Task;)Ljava/lang/Runnable;"
                erased := "()V"
                implementation := ⟨"a/Task", "lambda$later$0", "()V"⟩
                kind := 7
                instantiated := "()V" }
          , .op 0xB0 ] ] }

theorem parse_task : (parse task.assemble).toOption.any fun s =>
    s.name = "a/Task" ∧ s.superName = some "java/lang/Object" ∧
      s.methods.map (fun m => (m.name, m.lambdaTarget, m.bouncer)) =
        [("put", false, some ⟨"a/Task", "put", "(Ljava/lang/String;)V"⟩),
          ("lambda$later$0", true, none), ("later", false, none)] := by
  decide +kernel

/-- The bridge only forwards, and the second method is run by a lambda. -/
theorem tellsUse_of_parse_task :
    ∃ s layout rest, parse task.assemble = .ok s ∧
      Layout.read task.assemble = .ok (layout, rest) ∧
      (∃ m ∈ layout.methods, m.name = "put" ∧ ∃ body, m.body layout.pool = .ok body ∧
        Candidate.Bounces { access := m.access, descriptor := m.descriptor, code := body } "a/Task"
          (some "java/lang/Object") ⟨"a/Task", "put", "(Ljava/lang/String;)V"⟩) ∧
      ∃ m ∈ layout.methods, m.name = "lambda$later$0" ∧
        layout.RunsInLambda ⟨"a/Task", m.name, m.descriptor⟩ := by
  obtain ⟨s, hs, hflags⟩ := (Option.any_eq_true _ _).mp parse_task
  obtain ⟨hname, hsuper, hmethods⟩ := of_decide_eq_true hflags
  have hparse : parse task.assemble = .ok s := toOption_eq_some.mp hs
  obtain ⟨layout, rest, hlayout, hname', hsuper', htells⟩ := tellsUse_of_parse hparse
  rw [hname] at hname'
  rw [hsuper] at hsuper'
  have hsaid : ∀ t ∈ s.methods.map fun m => (m.name, m.lambdaTarget, m.bouncer),
      ∃ m ∈ layout.methods, ∃ said, TellsUse layout m said ∧
        (said.name, said.lambdaTarget, said.bouncer) = t := by
    intro t ht
    obtain ⟨said, hsaid, rfl⟩ := List.mem_map.mp ht
    obtain ⟨m, hm, h⟩ := exists_of_forall₂_of_mem htells hsaid
    exact ⟨m, hm, said, h, rfl⟩
  rw [hmethods] at hsaid
  simp only [List.forall_mem_cons, Prod.mk.injEq] at hsaid
  obtain ⟨⟨put, hput, saidPut, htoldPut, hnamePut, _, hbouncer⟩,
    ⟨run, hrun, saidRun, htoldRun, hnameRun, hlambda, _⟩, _⟩ := hsaid
  refine ⟨s, layout, rest, hparse, hlayout, ⟨put, hput, ?_, ?_⟩, run, hrun, ?_, ?_⟩
  · exact htoldPut.name.symm.trans hnamePut
  · have hbounces := ((htoldPut.bouncer _).mp hbouncer).2
    rwa [← hname', ← hsuper'] at hbounces
  · exact htoldRun.name.symm.trans hnameRun
  · have hruns := htoldRun.lambdaTarget.mp hlambda
    rwa [← hname'] at hruns

end Sample
end ClassFile
end Lineage
