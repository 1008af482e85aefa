import Lineage.ClassFile.Summary
import Lineage.Proofs.Assembly.Code
import Lineage.Proofs.Assembly.Requests
import Mathlib.Data.List.Basic

/-!
Lambda sites and the bootstrap table.  Sites are numbered through the class, so
the decoded bodies call the entries of the table in order and each exactly
once, and an entry leads back to the implementation of its site.
-/

namespace Lineage
namespace Assembly

open ClassFile (BootstrapMethod Instruction)

/-! ## Numbers -/

/-- The bootstrap number of a dynamic call. -/
def bootstrap? : Instruction → Option UInt16
  | .invokeDynamic bootstrap _ _ => some bootstrap
  | _ => none

theorem bootstrapNumbers_eq (bodies : List (List Instruction)) :
    ClassFile.bootstrapNumbers bodies = (bodies.flatten.filterMap bootstrap?).eraseDups := rfl

theorem bootstrap?_instruction (sites : Nat) (s : CodeStep) :
    bootstrap? (s.instruction sites) = s.lambda?.map fun _ => UInt16.ofNat sites := by
  cases s with
  | op opcode =>
    show bootstrap? (bareInstruction opcode) = none
    simp only [bareInstruction]
    split
    · rfl
    · split <;> rfl
  | _ => rfl

theorem filterMap_bootstrap?_instructions (sites : Nat) (steps : List CodeStep) :
    (instructions sites steps).filterMap bootstrap?
      = (List.range' sites (steps.filterMap CodeStep.lambda?).length).map UInt16.ofNat := by
  induction steps generalizing sites with
  | nil => rfl
  | cons s steps ih =>
    rw [instructions, numbered, List.map_cons, List.filterMap_cons, bootstrap?_instruction,
      List.filterMap_cons]
    cases hs : s.lambda? with
    | none => exact ih sites
    | some site =>
      have htail := ih (sites + 1)
      rw [List.length_cons, List.range'_succ, List.map_cons]
      exact congrArg (UInt16.ofNat sites :: ·) htail

/-- The decoded bodies of a class whose first declaration comes after `sites`
lambda sites. -/
def bodiesFrom (sites : Nat) (ds : List Declaration) : List (List Instruction) :=
  (numberedDeclarations sites ds).filterMap fun d =>
    d.2.method?.map fun m => instructions d.1 (m.body.getD [])

theorem filterMap_bootstrap?_bodiesFrom (sites : Nat) (ds : List Declaration) :
    (bodiesFrom sites ds).flatten.filterMap bootstrap?
      = (List.range' sites (ds.flatMap Declaration.lambdas).length).map UInt16.ofNat := by
  induction ds generalizing sites with
  | nil => rfl
  | cons d ds ih =>
    have htail := ih (sites + d.lambdas.length)
    rw [bodiesFrom, numberedDeclarations, List.filterMap_cons, List.flatMap_cons,
      List.length_append, ← List.range'_append_1, List.map_append, ← htail]
    cases d with
    | method m =>
      show (instructions sites (m.body.getD []) ++ (bodiesFrom _ ds).flatten).filterMap _ = _
      rw [List.filterMap_append, filterMap_bootstrap?_instructions]
      rfl
    | interface | signature | field => rfl

theorem eraseDups_of_nodup {α : Type} [BEq α] [LawfulBEq α] {l : List α} (h : l.Nodup) :
    l.eraseDups = l := by
  induction l with
  | nil => rfl
  | cons a l ih =>
    obtain ⟨ha, hl⟩ := List.nodup_cons.mp h
    have hfilter : l.filter (fun b => !b == a) = l := by
      refine List.filter_eq_self.mpr fun b hb => ?_
      have hne : b ≠ a := fun hba => ha (hba ▸ hb)
      simpa using hne
    rw [List.eraseDups_cons, hfilter, ih hl]

theorem nodup_map_ofNat {n : Nat} (h : n ≤ 65536) :
    ((List.range' 0 n).map UInt16.ofNat).Nodup := by
  refine List.pairwise_map.mpr ((List.nodup_range' 1).imp_of_mem fun ha hb hne heq => hne ?_)
  have ha := (List.mem_range'_1.mp ha).2
  have hb := (List.mem_range'_1.mp hb).2
  have htoNat := congrArg UInt16.toNat heq
  rw [UInt16.toNat_ofNat_of_lt' (show _ < 65536 by omega),
    UInt16.toNat_ofNat_of_lt' (show _ < 65536 by omega)] at htoNat
  exact htoNat

theorem filterMap_getElem?_range' {α : Type} (front l : List α) :
    (List.range' front.length l.length).filterMap (fun i => (front ++ l)[i]?) = l := by
  induction l generalizing front with
  | nil => rfl
  | cons a l ih =>
    have htail := ih (front ++ [a])
    rw [List.length_append, List.length_singleton, List.append_assoc,
      List.singleton_append] at htail
    rw [List.length_cons, List.range'_succ, List.filterMap_cons, htail]
    simp

/-- The decoded bodies refer to the entries of a table in order. -/
theorem filterMap_bootstrapNumbers {ds : List Declaration} {table : List BootstrapMethod}
    (htable : table.length = (ds.flatMap Declaration.lambdas).length)
    (hlen : table.length < 65536) :
    (ClassFile.bootstrapNumbers (bodiesFrom 0 ds)).filterMap (fun n => table[n.toNat]?)
      = table := by
  rw [bootstrapNumbers_eq, filterMap_bootstrap?_bodiesFrom, ← htable,
    eraseDups_of_nodup (nodup_map_ofNat (Nat.le_of_lt hlen)), List.filterMap_map]
  have hget : ∀ i ∈ List.range' 0 table.length,
      ((fun n : UInt16 => table[n.toNat]?) ∘ UInt16.ofNat) i = table[i]? := by
    intro i hi
    have hi := (List.mem_range'_1.mp hi).2
    have htoNat : (UInt16.ofNat i).toNat = i :=
      UInt16.toNat_ofNat_of_lt' (show _ < 65536 by omega)
    show table[(UInt16.ofNat i).toNat]? = table[i]?
    rw [htoNat]
  rw [List.filterMap_congr hget]
  exact filterMap_getElem?_range' [] table

/-! ## Entries -/

/-- The table entry that is read for a site. -/
def LambdaSite.bootstrap (pool : SymbolPool) (s : LambdaSite) : BootstrapMethod :=
  { handle := pool.index s.factory, arguments := s.arguments.map pool.index }

theorem implementation?_bootstrap {pool : SymbolPool} (hpool : pool.Loadable) {s : LambdaSite}
    (hfactory : s.factory ∈ pool.symbols) (harguments : s.arguments ⊆ pool.symbols) :
    (s.bootstrap pool).implementation? pool.loaded = .ok (some s.implementation) := by
  have himplementation : .methodHandle s.kind
      (if s.kind = LambdaSite.interfaceKind then .interfaceMethod else .method)
      s.implementation ∈ s.arguments := by simp [LambdaSite.arguments]
  have hmakes : ClassFile.makesLambda
      (if s.alternative then LambdaSite.altMetafactory else LambdaSite.metafactory)
      (s.bootstrap pool).arguments.length = true := by
    cases halt : s.alternative <;> simp [LambdaSite.bootstrap, LambdaSite.arguments, halt,
      ClassFile.makesLambda, ClassFile.lambdaFactory, LambdaSite.altMetafactory,
      LambdaSite.metafactory]
  have hhandle : pool.loaded.methodHandle? (s.bootstrap pool).handle = .ok (some
      (if s.alternative then LambdaSite.altMetafactory else LambdaSite.metafactory)) :=
    SymbolPool.methodHandle?_index hpool hfactory
  rw [BootstrapMethod.implementation?, hhandle]
  simp only [bind, Except.bind]
  rw [if_pos hmakes]
  exact SymbolPool.methodHandle?_index hpool (harguments himplementation)

theorem implementations_map_bootstrap {pool : SymbolPool} (hpool : pool.Loadable)
    {sites : List LambdaSite}
    (h : ∀ s ∈ sites, s.factory ∈ pool.symbols ∧ s.arguments ⊆ pool.symbols) :
    ClassFile.implementations pool.loaded (sites.map (LambdaSite.bootstrap pool))
      = .ok (sites.map LambdaSite.implementation) := by
  induction sites with
  | nil => rfl
  | cons s sites ih =>
    obtain ⟨hfactory, harguments⟩ := h s List.mem_cons_self
    rw [List.map_cons, ClassFile.implementations,
      implementation?_bootstrap hpool hfactory harguments,
      ih fun t ht => h t (List.mem_cons_of_mem s ht)]
    rfl

end Assembly
end Lineage
