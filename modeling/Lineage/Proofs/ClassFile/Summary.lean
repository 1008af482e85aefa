import Mathlib.Data.Option.Basic
import Lineage.ClassFile.Summary

/-!
What a summary can say.

A class file that is parsed has been read in full, all its bodies decoded and
its lambda sites looked up; only then is anything said of its members.
-/

namespace Lineage
namespace ClassFile

/-- A bouncer stays in its class or goes to the superclass. -/
theorem Candidate.owner_of_bounceTarget? {m : Candidate} {className : String}
    {superName : Option String} {lambdaTarget : Bool} {target : MemberRef}
    (h : m.bounceTarget? className superName lambdaTarget = some target) :
    target.owner = className ∨ superName = some target.owner := by
  unfold bounceTarget? at h
  simp only [Option.bind_eq_bind, Option.bind_eq_some_iff] at h
  obtain ⟨_, _, _, _, h⟩ := h
  split at h
  · simp only [Option.bind_eq_some_iff] at h
    obtain ⟨_, _, ⟨body, called⟩, _, _, _, _, _, _, howner, _, _, _, _, hcalled⟩ := h
    cases hcalled
    have howner := (Option.guard_eq_some' _).mp howner
    rw [Bool.or_eq_true, beq_iff_eq, beq_iff_eq] at howner
    exact howner.imp_right Eq.symm
  · cases h

theorem summary_eq_ok {layout : Layout} {s : Summary} (h : layout.summary = .ok s) :
    ∃ bodies targets, decodeBodies layout.pool layout.methods = .ok bodies ∧
      lambdaTargets layout.pool layout.bootstraps bodies = .ok targets ∧
      s =
        { name := layout.name
          superName := layout.superName
          interfaces := layout.interfaces
          access := layout.access
          signature := layout.signature
          fields := layout.fields.map FieldLayout.summary
          methods := (layout.methods.zip bodies).map fun m =>
            m.1.summary layout.name layout.superName targets m.2 } := by
  unfold Layout.summary at h
  cases hbodies : decodeBodies layout.pool layout.methods with
  | error e => simp [hbodies, bind, Except.bind] at h
  | ok bodies =>
    cases htargets : lambdaTargets layout.pool layout.bootstraps bodies with
    | error e => simp [hbodies, htargets, bind, Except.bind] at h
    | ok targets =>
      simp only [hbodies, htargets, bind, Except.bind, Except.ok.injEq] at h
      exact ⟨bodies, targets, rfl, htargets, h.symm⟩

theorem parse_eq_ok {bytes : Bytes} {s : Summary} (h : parse bytes = .ok s) :
    ∃ layout rest, Layout.read bytes = .ok (layout, rest) ∧ layout.summary = .ok s := by
  unfold parse at h
  cases hread : Layout.read bytes with
  | error e => simp [hread, bind, Except.bind] at h
  | ok p =>
    simp only [hread, bind, Except.bind] at h
    exact ⟨p.1, p.2, rfl, h⟩

theorem owner_of_bouncer {bytes : Bytes} {s : Summary} (hs : parse bytes = .ok s)
    {m : MethodSummary} (hm : m ∈ s.methods) {target : MemberRef}
    (ht : m.bouncer = some target) : target.owner = s.name ∨ s.superName = some target.owner := by
  obtain ⟨layout, _, _, hsummary⟩ := parse_eq_ok hs
  obtain ⟨bodies, targets, _, _, rfl⟩ := summary_eq_ok hsummary
  obtain ⟨⟨m, code⟩, _, rfl⟩ := List.mem_map.mp hm
  exact Candidate.owner_of_bounceTarget? ht

end ClassFile
end Lineage
