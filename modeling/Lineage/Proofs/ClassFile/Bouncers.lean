import Mathlib.Data.Option.Basic
import Lineage.ClassFile.Shape

/-!
The shape of bouncers.

Between the load of the receiver and the call, a bouncer loads parameters from the
first one on, each from the slot it arrives in, and checks types.  That it loads
all of them is not asked for: the descriptors of bouncer and target are compared,
not what has been loaded.  Since the two take the same slots, parameters are left
out exactly when what was loaded is less than what the call takes, as long as the
slots can be counted in a word.
-/

namespace Lineage

namespace FieldType

theorem slots_pos (t : FieldType) : 0 < t.slots.toNat := by
  cases t <;> simp [slots]

/-- Slots that values of these types take together. -/
def slotsOf (types : List FieldType) : UInt16 := types.foldr (fun t total => t.slots + total) 0

/-- The number of these slots, which may be too large for a word. -/
def room (types : List FieldType) : Nat :=
  types.foldr (fun t total => t.slots.toNat + total) 0

@[simp]
theorem room_nil : room [] = 0 := rfl

@[simp]
theorem room_cons (t : FieldType) (types : List FieldType) :
    room (t :: types) = t.slots.toNat + room types := rfl

theorem room_take_lt {types : List FieldType} {k : Nat} (h : k < types.length) :
    room (types.take k) < room types := by
  induction types generalizing k with
  | nil => cases h
  | cons t types ih =>
    have ht := t.slots_pos
    cases k with
    | zero =>
      rw [List.take_zero, room_nil, room_cons]
      omega
    | succ k =>
      rw [List.take_succ_cons, room_cons, room_cons]
      exact Nat.add_lt_add_left (ih (Nat.lt_of_succ_lt_succ h)) _

theorem toNat_slotsOf (types : List FieldType) :
    (slotsOf types).toNat = room types % 65536 := by
  induction types with
  | nil => rfl
  | cons t types ih =>
    show (t.slots + slotsOf types).toNat = _
    rw [UInt16.toNat_add, ih, room_cons]
    omega

end FieldType

open FieldType (slotsOf room)

namespace MethodType

/-- The local variable in which parameter `i` arrives: behind the receiver and the
parameters before it. -/
def slotOf (m : MethodType) (i : Nat) : UInt16 := 1 + slotsOf (m.parameters.take i)

/-- Slots can be counted in a word, the receiver included. -/
def CountsSlots (m : MethodType) : Prop := 1 + room m.parameters < 65536

instance : DecidablePred CountsSlots := fun _ => inferInstanceAs (Decidable (_ < _))

variable {m : MethodType}

theorem CountsSlots.toNat_slotOf (h : m.CountsSlots) {i : Nat} (hi : i ≤ m.parameters.length) :
    (m.slotOf i).toNat = 1 + room (m.parameters.take i) := by
  have hle : room (m.parameters.take i) ≤ room m.parameters := by
    rcases Nat.lt_or_eq_of_le hi with hlt | heq
    · exact Nat.le_of_lt (FieldType.room_take_lt hlt)
    · exact Nat.le_of_eq (by rw [heq, List.take_length])
  unfold CountsSlots at h
  rw [slotOf, UInt16.toNat_add, FieldType.toNat_slotsOf, UInt16.toNat_one]
  omega

theorem CountsSlots.toNat_arguments (h : m.CountsSlots) :
    m.stackShape.arguments.toNat = 1 + room m.parameters := by
  have hall := h.toNat_slotOf (Nat.le_refl _)
  rwa [slotOf, List.take_length] at hall

end MethodType

namespace ClassFile

namespace Instruction

/-- The local variable that a load reads. -/
def slot? : Instruction → Option UInt16
  | load _ slot => some slot
  | _ => none

def isTypeCheck : Instruction → Bool
  | typeCheck _ _ => true
  | _ => false

/-- A load of a local variable, or a type check. -/
def isPreparing (i : Instruction) : Bool := i.slot?.isSome || i.isTypeCheck

end Instruction

/-- `code` loads the receiver, then the first `k` parameters in order with type
checks anywhere between them, calls `target` and returns. -/
def ForwardsFirst (own : MethodType) (k : Nat) (target : MemberRef) (code : List Instruction) :
    Prop :=
  ∃ body call leave,
    code = .load .reference 0 :: (body ++ [.invoke call target, .leave leave]) ∧
      (∀ i ∈ body, i.isPreparing) ∧
      body.filterMap Instruction.slot? = (List.range k).map own.slotOf

/-- The code tells how many parameters it loads. -/
theorem ForwardsFirst.eq {own : MethodType} {j k : Nat} {target target' : MemberRef}
    {code : List Instruction} (hj : ForwardsFirst own j target code)
    (hk : ForwardsFirst own k target' code) : j = k := by
  obtain ⟨body, call, leave, hcode, _, hloads⟩ := hj
  obtain ⟨body', call', leave', hcode', _, hloads'⟩ := hk
  have hrest := (List.cons.inj (hcode.symm.trans hcode')).2
  have hbody : body = body' := (List.append_inj' hrest rfl).1
  rw [hbody, hloads'] at hloads
  have hlength := congrArg List.length hloads
  rw [List.length_map, List.length_map, List.length_range, List.length_range] at hlength
  exact hlength.symm

namespace Candidate

/-- The slots of the parameters after the first are those of the later parameters
alone, behind the first. -/
theorem map_slots_succ (slot : UInt16) (k : Nat) (p : FieldType) (ps : List FieldType) :
    (List.range (k + 1)).map (fun i => slot + slotsOf ((p :: ps).take i)) =
      slot :: (List.range k).map fun i => slot + p.slots + slotsOf (ps.take i) := by
  rw [List.range_succ_eq_map, List.map_cons, List.map_map]
  have hfirst : slot + slotsOf ((p :: ps).take 0) = slot := UInt16.add_zero slot
  refine congrArg₂ List.cons hfirst (List.map_congr_left fun i _ => ?_)
  show slot + (p.slots + slotsOf (ps.take i)) = slot + p.slots + slotsOf (ps.take i)
  exact (UInt16.add_assoc ..).symm

theorem filterMap_slot?_load (kind : LoadKind) (slot : UInt16) (rest : List Instruction) :
    (.load kind slot :: rest).filterMap Instruction.slot? =
      slot :: rest.filterMap Instruction.slot? := rfl

theorem forwards_iff {parameters : List FieldType} {slot : UInt16} {body : List Instruction} :
    forwards parameters slot body = true ↔
      (∀ i ∈ body, i.isPreparing) ∧ ∃ k ≤ parameters.length,
        body.filterMap Instruction.slot? =
          (List.range k).map fun i => slot + slotsOf (parameters.take i) := by
  fun_induction forwards parameters slot body with
  | case1 parameters slot =>
    exact iff_of_true rfl ⟨List.forall_mem_nil _, 0, Nat.zero_le _, rfl⟩
  | case2 slot kind s rest p ps ih =>
    rw [Bool.and_eq_true, beq_iff_eq, ih, List.forall_mem_cons, filterMap_slot?_load]
    constructor
    · rintro ⟨rfl, hrest, k, hk, hloads⟩
      exact ⟨⟨rfl, hrest⟩, k + 1, Nat.succ_le_succ hk, by rw [map_slots_succ, hloads]⟩
    · rintro ⟨⟨_, hrest⟩, k, hk, hloads⟩
      cases k with
      | zero => cases hloads
      | succ k =>
        rw [map_slots_succ, List.cons.injEq] at hloads
        exact ⟨hloads.1, hrest, k, Nat.le_of_succ_le_succ hk, hloads.2⟩
  | case3 slot kind s rest =>
    refine iff_of_false Bool.false_ne_true ?_
    rintro ⟨_, k, hk, hloads⟩
    rw [Nat.le_zero.mp hk, filterMap_slot?_load] at hloads
    cases hloads
  | case4 parameters slot opcode name rest ih =>
    rw [ih, List.forall_mem_cons, List.filterMap_cons_none rfl]
    exact and_congr_left fun _ => (and_iff_right rfl).symm
  | case5 parameters slot i rest hload hcheck =>
    refine iff_of_false Bool.false_ne_true fun h => ?_
    have hi : i.isPreparing := h.1 i List.mem_cons_self
    cases i with
    | load kind s => exact hload kind s rfl
    | typeCheck opcode name => exact hcheck opcode name rfl
    | _ => cases hi

theorem tailCall?_eq_some_iff {code body : List Instruction} {target : MemberRef} :
    tailCall? code = some (body, target) ↔
      ∃ call leave, code = body ++ [.invoke call target, .leave leave] := by
  unfold tailCall?
  constructor
  · intro h
    split at h
    · next leave call method front hreverse =>
      cases h
      refine ⟨call, leave, ?_⟩
      rw [← List.reverse_reverse code, hreverse, List.reverse_cons, List.reverse_cons,
        List.append_assoc, List.singleton_append]
    · cases h
  · rintro ⟨call, leave, rfl⟩
    rw [List.reverse_append]
    exact congrArg (fun b => some (b, target)) (List.reverse_reverse body)

/-- What makes a method a bouncer, unless a lambda runs it. -/
structure Bounces (m : Candidate) (className : String) (superName : Option String)
    (target : MemberRef) : Prop where
  isInstance : m.access.has .static = false
  isGenerated : m.access.has .synthetic ∨ m.access.has .bridge
  forwards : ∃ own callee k, MethodType.parse m.descriptor = .ok own ∧
    MethodType.parse target.descriptor = .ok callee ∧ callee.stackShape = own.stackShape ∧
    k ≤ own.parameters.length ∧ ForwardsFirst own k target m.code
  owner : target.owner = className ∨ superName = some target.owner

/-- Forwarding code starts with the receiver and ends in a call and a return, with
nothing but loads in order and type checks between. -/
theorem exists_forwardsFirst_iff {own : MethodType} {target : MemberRef}
    {code : List Instruction} :
    (∃ k ≤ own.parameters.length, ForwardsFirst own k target code) ↔
      ∃ rest body, code = .load .reference 0 :: rest ∧ tailCall? rest = some (body, target) ∧
        forwards own.parameters 1 body = true := by
  simp only [tailCall?_eq_some_iff, forwards_iff]
  constructor
  · rintro ⟨k, hk, body, call, leave, hcode, hbody, hloads⟩
    exact ⟨_, body, hcode, ⟨call, leave, rfl⟩, hbody, k, hk, hloads⟩
  · rintro ⟨_, body, hcode, ⟨call, leave, rfl⟩, hbody, k, hk, hloads⟩
    exact ⟨k, hk, body, call, leave, hcode, hbody, hloads⟩

theorem bounceTarget?_eq_some_iff {m : Candidate} {className : String} {superName : Option String}
    {lambdaTarget : Bool} {target : MemberRef} :
    m.bounceTarget? className superName lambdaTarget = some target ↔
      lambdaTarget = false ∧ m.Bounces className superName target := by
  have hparsed {d : String} {t : MethodType} :
      (MethodType.parse d).toOption = some t ↔ MethodType.parse d = .ok t := by
    cases MethodType.parse d <;> simp [Except.toOption]
  unfold bounceTarget?
  simp only [Option.bind_eq_bind, Option.bind_eq_some_iff, Option.guard_eq_some', exists_const,
    Bool.and_eq_true, Bool.not_eq_true', Bool.or_eq_true]
  constructor
  · rintro ⟨⟨hfree, hinstance⟩, hgenerated, h⟩
    split at h
    · next receiver rest hcode =>
      simp only [Option.bind_eq_some_iff, Option.guard_eq_some', exists_const, hparsed,
        beq_iff_eq, Instruction.isReceiverLoad] at h
      obtain ⟨rfl, ⟨body, called⟩, htail, own, hown, hforwards, howner, callee, hcallee, hshape,
        hcalled⟩ := h
      cases hcalled
      obtain ⟨k, hk, hfirst⟩ := exists_forwardsFirst_iff.mpr ⟨rest, body, hcode, htail, hforwards⟩
      exact ⟨hfree, hinstance, hgenerated, ⟨own, callee, k, hown, hcallee, hshape, hk, hfirst⟩,
        howner.imp_right Eq.symm⟩
    · cases h
  · rintro ⟨hfree, hinstance, hgenerated, ⟨own, callee, k, hown, hcallee, hshape, hk, hfirst⟩, howner⟩
    obtain ⟨rest, body, hcode, htail, hforwards⟩ := exists_forwardsFirst_iff.mp ⟨k, hk, hfirst⟩
    refine ⟨⟨hfree, hinstance⟩, hgenerated, ?_⟩
    rw [hcode]
    simp only [Option.bind_eq_some_iff, Option.guard_eq_some', exists_const, hparsed,
      beq_iff_eq, Instruction.isReceiverLoad]
    exact ⟨trivial, (body, target), htail, own, hown, hforwards, howner.imp_right Eq.symm, callee,
      hcallee, hshape, rfl⟩

/-! ## Parameters that are left out -/

/-- The method loads each of its parameters once, in order, before it calls. -/
def ForwardsAll (m : Candidate) (target : MemberRef) : Prop :=
  ∃ own, MethodType.parse m.descriptor = .ok own ∧
    ForwardsFirst own own.parameters.length target m.code

/-- A bouncer loads its first parameters, each once and in order, and calls.  They
are all its parameters exactly when, with the receiver, they are enough for the call,
if its slots can be counted in a word. -/
theorem forwardsAll_iff {m : Candidate} {className : String} {superName : Option String}
    {lambdaTarget : Bool} {target : MemberRef}
    (h : m.bounceTarget? className superName lambdaTarget = some target) :
    ∃ own callee k, MethodType.parse m.descriptor = .ok own ∧
      MethodType.parse target.descriptor = .ok callee ∧ k ≤ own.parameters.length ∧
      ForwardsFirst own k target m.code ∧
      (m.ForwardsAll target ↔ k = own.parameters.length) ∧
      (own.CountsSlots → (m.ForwardsAll target ↔
        callee.stackShape.arguments.toNat ≤ 1 + room (own.parameters.take k))) := by
  obtain ⟨own, callee, k, hown, hcallee, hshape, hk, hfirst⟩ :=
    (bounceTarget?_eq_some_iff.mp h).2.forwards
  have hall : m.ForwardsAll target ↔ k = own.parameters.length := by
    constructor
    · rintro ⟨own', hown', hall⟩
      cases hown.symm.trans hown'
      exact hfirst.eq hall
    · rintro rfl
      exact ⟨own, hown, hfirst⟩
  refine ⟨own, callee, k, hown, hcallee, hk, hfirst, hall, fun hcounts => ?_⟩
  rw [hall, hshape, hcounts.toNat_arguments]
  constructor
  · rintro rfl
    exact Nat.le_of_eq (by rw [List.take_length])
  · intro henough
    refine (Nat.lt_or_eq_of_le hk).resolve_left fun hlt => ?_
    have hless := FieldType.room_take_lt hlt
    omega

namespace Sample

/-- A bridge that narrows its second parameter. -/
def narrowing : Candidate :=
  { access := ⟨0x1041⟩
    descriptor := "(JLjava/lang/Object;)V"
    code := [.load .reference 0, .load .long 1, .load .reference 3,
      .typeCheck 0xC0 "java/lang/String", .invoke 0xB6 ⟨"a/Impl", "put", "(JLjava/lang/String;)V"⟩,
      .leave 0xB1] }

theorem forwardsAll_narrowing :
    narrowing.bounceTarget? "a/Impl" (some "a/Base") false =
        some ⟨"a/Impl", "put", "(JLjava/lang/String;)V"⟩ ∧
      narrowing.ForwardsAll ⟨"a/Impl", "put", "(JLjava/lang/String;)V"⟩ := by
  have hbouncer : narrowing.bounceTarget? "a/Impl" (some "a/Base") false =
      some ⟨"a/Impl", "put", "(JLjava/lang/String;)V"⟩ := by decide +kernel
  have hparse : (MethodType.parse narrowing.descriptor).toOption =
      some ⟨[.long, .object "java/lang/Object"], none⟩ := by decide +kernel
  have hcalled : (MethodType.parse "(JLjava/lang/String;)V").toOption =
      some ⟨[.long, .object "java/lang/String"], none⟩ := by decide +kernel
  obtain ⟨own, callee, k, hown, hcallee, _, hfirst, _, hall⟩ := forwardsAll_iff hbouncer
  rw [hown] at hparse
  rw [hcallee] at hcalled
  cases hparse
  cases hcalled
  have hboth : ForwardsFirst ⟨[.long, .object "java/lang/Object"], none⟩ 2
      ⟨"a/Impl", "put", "(JLjava/lang/String;)V"⟩ narrowing.code :=
    ⟨[.load .long 1, .load .reference 3, .typeCheck 0xC0 "java/lang/String"], 0xB6, 0xB1, rfl,
      by decide, rfl⟩
  cases hfirst.eq hboth
  exact ⟨hbouncer, (hall (by decide)).mpr (by decide)⟩

/-- A method that takes an object and passes on its receiver instead. -/
def dropping : Candidate :=
  { access := ⟨0x1041⟩
    descriptor := "(Ljava/lang/Object;)V"
    code := [.load .reference 0, .invoke 0xB8 ⟨"a/Impl", "run", "(Ljava/lang/Object;)V"⟩,
      .leave 0xB1] }

theorem bounceTarget?_dropping :
    dropping.bounceTarget? "a/Impl" (some "a/Base") false =
        some ⟨"a/Impl", "run", "(Ljava/lang/Object;)V"⟩ ∧
      ¬ dropping.ForwardsAll ⟨"a/Impl", "run", "(Ljava/lang/Object;)V"⟩ := by
  have hparse : (MethodType.parse dropping.descriptor).toOption =
      some ⟨[.object "java/lang/Object"], none⟩ := by decide +kernel
  refine ⟨by decide +kernel, ?_⟩
  rintro ⟨own, hown, hall⟩
  rw [hown] at hparse
  cases hparse
  have hnone : ForwardsFirst ⟨[.object "java/lang/Object"], none⟩ 0
      ⟨"a/Impl", "run", "(Ljava/lang/Object;)V"⟩ dropping.code :=
    ⟨[], 0xB8, 0xB1, rfl, List.forall_mem_nil _, rfl⟩
  cases hnone.eq hall

end Sample
end Candidate
end ClassFile
end Lineage
