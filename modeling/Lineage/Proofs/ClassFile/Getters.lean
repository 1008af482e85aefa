import Mathlib.Data.List.Forall2
import Lineage.Proofs.ClassFile.Summary

/-!
Getters, as class files have them.

Bodies are decoded one by one, so what a summary says of a method goes back to the
body of that very method.  It names the field that a getter returns, and does not
say under which descriptor the body reads it.
-/

namespace Lineage
namespace ClassFile

/-- What there is to decode of a method: a method without code has an empty
body. -/
def MethodLayout.body (m : MethodLayout) (pool : Pool) : Except ReadError (List Instruction) :=
  match m.code with
  | some code => Instruction.decode pool code
  | none => .ok []

theorem decodeBodies_cons (pool : Pool) (m : MethodLayout) (ms : List MethodLayout) :
    decodeBodies pool (m :: ms) =
      (m.body pool).bind fun body => (decodeBodies pool ms).map (body :: ·) := by
  rw [decodeBodies, MethodLayout.body]
  cases m.code <;> rfl

/-- Bodies belong to the methods that they are decoded from. -/
theorem forall₂_of_decodeBodies {pool : Pool} {ms : List MethodLayout}
    {bodies : List (List Instruction)} (h : decodeBodies pool ms = .ok bodies) :
    List.Forall₂ (fun m body => m.body pool = .ok body) ms bodies := by
  induction ms generalizing bodies with
  | nil =>
    cases h
    exact .nil
  | cons m ms ih =>
    rw [decodeBodies_cons] at h
    cases hbody : m.body pool with
    | error e => simp [hbody, Except.bind] at h
    | ok body =>
      cases hrest : decodeBodies pool ms with
      | error e => simp [hbody, hrest, Except.bind, Except.map] at h
      | ok rest =>
        simp only [hbody, hrest, Except.bind, Except.map, Except.ok.injEq] at h
        subst h
        exact .cons hbody (ih hrest)

/-! ## One method -/

/-- A body that loads the receiver, reads a field of the class and returns. -/
def ReturnsField (className field descriptor : String) (body : List Instruction) : Prop :=
  ∃ opcode rest, body =
    .load .reference 0 :: .getField ⟨className, field, descriptor⟩ :: .leave opcode :: rest

theorem ReturnsField.getElem?_one {className field descriptor : String}
    {body : List Instruction} (h : ReturnsField className field descriptor body) :
    body[1]? = some (.getField ⟨className, field, descriptor⟩) := by
  obtain ⟨opcode, rest, rfl⟩ := h
  rfl

theorem Candidate.getterField?_eq_some_iff {m : Candidate} {className field : String} :
    m.getterField? className = some field ↔
      m.access.has .static = false ∧ ['(', ')'].isPrefixOf m.descriptor.toList ∧
        ∃ descriptor, ReturnsField className field descriptor m.code := by
  unfold getterField?
  simp only [Option.bind_eq_bind, Option.bind_eq_some_iff, Option.guard_eq_some', Bool.not_eq_true',
    exists_const]
  refine and_congr_right fun _ => and_congr_right fun _ => ⟨fun hbody => ?_, ?_⟩
  · split at hbody
    · next receiver read opcode rest hcode =>
      obtain ⟨_, hguard, hname⟩ := Option.bind_eq_some_iff.mp hbody
      have hguard := (Option.guard_eq_some' _).mp hguard
      rw [Bool.and_eq_true, Instruction.isReceiverLoad, beq_iff_eq, beq_iff_eq] at hguard
      obtain ⟨rfl, rfl⟩ := hguard
      cases hname
      exact ⟨read.descriptor, opcode, rest, hcode⟩
    · cases hbody
  · rintro ⟨descriptor, opcode, rest, hcode⟩
    rw [hcode]
    simp [Instruction.isReceiverLoad]

/-- A method of an instance that takes nothing and returns a field of its class. -/
structure MethodLayout.Gets (m : MethodLayout) (layout : Layout) (field descriptor : String) :
    Prop where
  isInstance : m.access.has .static = false
  takesNothing : ['(', ')'].isPrefixOf m.descriptor.toList
  returns : ∃ body, m.body layout.pool = .ok body ∧ ReturnsField layout.name field descriptor body

/-- The second instruction of a method. -/
def MethodLayout.second? (m : MethodLayout) (pool : Pool) : Option Instruction :=
  (m.body pool).toOption.bind (·[1]?)

theorem MethodLayout.Gets.second? {m : MethodLayout} {layout : Layout}
    {field descriptor : String} (h : m.Gets layout field descriptor) :
    m.second? layout.pool = some (.getField ⟨layout.name, field, descriptor⟩) := by
  obtain ⟨body, hbody, hreturns⟩ := h.returns
  rw [MethodLayout.second?, hbody]
  exact hreturns.getElem?_one

theorem getterOf_summary_iff {layout : Layout} {m : MethodLayout} {body : List Instruction}
    (hbody : m.body layout.pool = .ok body) (superName : Option String)
    (targets : List MemberRef) (field : String) :
    (m.summary layout.name superName targets body).getterOf = some field ↔
      ∃ descriptor, m.Gets layout field descriptor := by
  refine Candidate.getterField?_eq_some_iff.trans ⟨?_, ?_⟩
  · rintro ⟨hinstance, htakes, descriptor, hreturns⟩
    exact ⟨descriptor, hinstance, htakes, body, hbody, hreturns⟩
  · rintro ⟨descriptor, hgets⟩
    obtain ⟨body', hbody', hreturns⟩ := hgets.returns
    cases hbody.symm.trans hbody'
    exact ⟨hgets.isInstance, hgets.takesNothing, descriptor, hreturns⟩

/-! ## All methods of a class -/

/-- What the summary of a method says of the method. -/
structure Tells (layout : Layout) (m : MethodLayout) (said : MethodSummary) : Prop where
  name : said.name = m.name
  getterOf : ∀ field, said.getterOf = some field ↔ ∃ descriptor, m.Gets layout field descriptor

theorem forall₂_map_zip {α β γ : Type} {R : α → β → Prop} {S : α → γ → Prop} {f : α × β → γ}
    {xs : List α} {ys : List β} (h : List.Forall₂ R xs ys) (hf : ∀ x y, R x y → S x (f (x, y))) :
    List.Forall₂ S xs ((xs.zip ys).map f) := by
  induction h with
  | nil => exact .nil
  | cons hxy _ ih => exact .cons (hf _ _ hxy) ih

theorem tells_summary {layout : Layout} {s : Summary} (h : layout.summary = .ok s) :
    List.Forall₂ (Tells layout) layout.methods s.methods := by
  obtain ⟨bodies, targets, hbodies, _, rfl⟩ := summary_eq_ok h
  exact forall₂_map_zip (forall₂_of_decodeBodies hbodies) fun m body hbody =>
    ⟨rfl, getterOf_summary_iff hbody layout.superName targets⟩

/-- The first method in the file that returns a field of this name. -/
def Layout.FirstGetter (layout : Layout) (field : String) (m : MethodLayout) : Prop :=
  (∃ descriptor, m.Gets layout field descriptor) ∧
    ∃ before after, layout.methods = before ++ m :: after ∧
      ∀ n ∈ before, ∀ descriptor, ¬ n.Gets layout field descriptor

theorem Layout.FirstGetter.mem {layout : Layout} {field : String} {m : MethodLayout}
    (h : layout.FirstGetter field m) : m ∈ layout.methods := by
  obtain ⟨_, before, after, hmethods, _⟩ := h
  rw [hmethods]
  exact List.mem_append_right before List.mem_cons_self

/-- A search among summaries finds the summary of the first method that it looks
for. -/
theorem exists_first_of_find? {α β : Type} {R : α → β → Prop} {P : α → Prop} {p : β → Bool}
    {xs : List α} {ys : List β} (h : List.Forall₂ R xs ys) (hp : ∀ x y, R x y → (p y ↔ P x))
    {y : β} (hy : ys.find? p = some y) :
    ∃ before x after, xs = before ++ x :: after ∧ R x y ∧ P x ∧ ∀ z ∈ before, ¬ P z := by
  induction h with
  | nil => cases hy
  | @cons x y' xs ys hxy _ ih =>
    by_cases hy' : p y'
    · rw [List.find?_cons_of_pos hy'] at hy
      cases hy
      exact ⟨[], x, xs, rfl, hxy, (hp x _ hxy).mp hy', fun z hz => nomatch hz⟩
    · have hx : ¬ P x := fun hx => hy' ((hp x y' hxy).mpr hx)
      rw [List.find?_cons_of_neg hy'] at hy
      obtain ⟨before, x', after, rfl, hx', hP, hbefore⟩ := ih hy
      exact ⟨x :: before, x', after, rfl, hx', hP, List.forall_mem_cons.mpr ⟨hx, hbefore⟩⟩

theorem not_of_find?_eq_none {α β : Type} {R : α → β → Prop} {P : α → Prop} {p : β → Bool}
    {xs : List α} {ys : List β} (h : List.Forall₂ R xs ys) (hp : ∀ x y, R x y → (p y ↔ P x))
    (hnone : ys.find? p = none) : ∀ x ∈ xs, ¬ P x := by
  induction h with
  | nil => exact fun x hx => nomatch hx
  | @cons x y xs ys hxy _ ih =>
    rw [List.find?_eq_none] at hnone ih
    obtain ⟨hy, hys⟩ := List.forall_mem_cons.mp hnone
    exact List.forall_mem_cons.mpr ⟨fun hx => hy ((hp x y hxy).mpr hx), ih hys⟩

/-- The name of the first getter of a field, and whether there is one. -/
theorem find?_getterOf {layout : Layout} {s : Summary} (h : layout.summary = .ok s)
    (field : String) :
    let found := (s.methods.find? fun m => m.getterOf == some field).map MethodSummary.name
    (∀ name, found = some name → ∃ m, layout.FirstGetter field m ∧ m.name = name) ∧
      (found = none → ∀ m ∈ layout.methods, ∀ descriptor, ¬ m.Gets layout field descriptor) := by
  have htells : ∀ m (said : MethodSummary), Tells layout m said →
      (said.getterOf == some field ↔ ∃ descriptor, m.Gets layout field descriptor) :=
    fun m said htells => beq_iff_eq.trans (htells.getterOf field)
  refine ⟨fun name hname => ?_, fun hnone m hm descriptor hgets => ?_⟩
  · obtain ⟨said, hsaid, rfl⟩ := Option.map_eq_some_iff.mp hname
    obtain ⟨before, m, after, hmethods, hm, hgets, hbefore⟩ :=
      exists_first_of_find? (tells_summary h) htells hsaid
    exact ⟨m, ⟨hgets, before, after, hmethods, fun n hn descriptor hn' =>
      hbefore n hn ⟨descriptor, hn'⟩⟩, hm.name.symm⟩
  · exact not_of_find?_eq_none (tells_summary h) htells (Option.map_eq_none_iff.mp hnone) m hm
      ⟨descriptor, hgets⟩

end ClassFile
end Lineage
