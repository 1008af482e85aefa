import Mathlib.Data.List.Basic
import Lineage.Proofs.ClassFile.FileSummary
import Lineage.Proofs.ClassFile.Growth

/-!
Attributes that nothing is read from.

A file may carry any number of them, at the class, at its members and inside
code, and constants for them to refer to.  The summary is that of the file
without them: what is said is said by the other attributes alone, and by
constants that keep their indices.
-/

namespace Lineage
namespace ClassFile

/-! ## Leaving them out -/

def CodeInfo.bare (c : CodeInfo) : CodeInfo := { c with attributes := [] }

def Content.bare : Content → Content
  | code c => code c.bare
  | content => content

namespace AttributeInfo

def bare (a : AttributeInfo) : AttributeInfo := { a with content := a.content.bare }

/-- The attributes that something is read from. -/
def described (as : List AttributeInfo) : List AttributeInfo :=
  (as.filter fun a => !a.content.isRaw).map bare

/-- What only described attributes say is not lost. -/
theorem filterMap_described {α : Type} {g h : Content → Option α} (as : List AttributeInfo)
    (hraw : ∀ payload, h (.raw payload) = none)
    (hbare : ∀ content : Content, g content.bare = h content) :
    (described as).filterMap (fun a => g a.content) = as.filterMap fun a => h a.content := by
  rw [described, List.filterMap_map, List.filterMap_filter]
  refine List.filterMap_congr fun a _ => ?_
  have hcontent : (bare a).content = a.content.bare := rfl
  rw [Function.comp_apply, hcontent, hbare]
  cases a.content with
  | raw payload => rw [hraw]; rfl
  | _ => rfl

theorem signature?_described (as : List AttributeInfo) :
    signature? (described as) = signature? as := by
  rw [signature?, signature?,
    filterMap_described as (fun _ => rfl) fun content => by cases content <;> rfl]

theorem bootstraps?_described (as : List AttributeInfo) :
    bootstraps? (described as) = bootstraps? as := by
  rw [bootstraps?, bootstraps?,
    filterMap_described as (fun _ => rfl) fun content => by cases content <;> rfl]

theorem code?_described (as : List AttributeInfo) :
    code? (described as) = (code? as).map CodeInfo.bare := by
  have hdescribed : (described as).filterMap (fun a => a.content.code?)
      = as.filterMap fun a => a.content.code?.map CodeInfo.bare :=
    filterMap_described (h := fun content => content.code?.map CodeInfo.bare) as (fun _ => rfl)
      fun content => by cases content <;> rfl
  rw [code?, code?, hdescribed, ← List.getLast?_map, List.map_filterMap]

end AttributeInfo

namespace MemberInfo

def bare (m : MemberInfo) : MemberInfo :=
  { m with attributes := AttributeInfo.described m.attributes }

theorem signature_bare (t : ConstantTable) (m : MemberInfo) :
    m.bare.signature t = m.signature t := by
  rw [signature, signature, bare, AttributeInfo.signature?_described]

theorem instructions_bare (t : ConstantTable) (m : MemberInfo) :
    m.bare.instructions t = m.instructions t := by
  have hcode : m.bare.code? = m.code?.map CodeInfo.bare :=
    AttributeInfo.code?_described m.attributes
  rw [instructions, instructions, hcode]
  cases m.code? <;> rfl

theorem fieldSummary_bare (t : ConstantTable) (f : MemberInfo) :
    f.bare.fieldSummary t = f.fieldSummary t := by
  rw [fieldSummary, fieldSummary, signature_bare]
  rfl

end MemberInfo

namespace File

def bare (f : File) : File :=
  { f with
    fields := f.fields.map MemberInfo.bare
    methods := f.methods.map MemberInfo.bare
    attributes := AttributeInfo.described f.attributes }

/-- `f'` is `f` up to attributes that nothing is read from, with further
constants for them to refer to. -/
def Elaborates (f' f : File) : Prop :=
  ∃ extra, f'.table.constants = f.table.constants ++ extra ∧
    f'.bare = { f.bare with table := f'.table }

theorem isLambdaTarget_bare (f : File) (member : MemberRef) :
    f.bare.isLambdaTarget member = f.isLambdaTarget member := by
  have hbootstraps : f.bare.bootstraps = f.bootstraps := by
    rw [bootstraps, bootstraps, bare, AttributeInfo.bootstraps?_described]
  have hlambda (i : Instruction) : f.bare.lambda? i = f.lambda? i := by
    unfold lambda?
    rw [hbootstraps]
    rfl
  have hbodies : f.bare.methods.flatMap (MemberInfo.instructions f.bare.table)
      = f.methods.flatMap (MemberInfo.instructions f.table) := by
    rw [bare, List.flatMap_map]
    simp only [MemberInfo.instructions_bare]
  simp only [isLambdaTarget, hbodies, hlambda]

theorem methodSummary_bare (f : File) (m : MemberInfo) :
    f.bare.methodSummary m.bare = f.methodSummary m := by
  unfold methodSummary
  have htable : f.bare.table = f.table := rfl
  simp only [isLambdaTarget_bare, htable, MemberInfo.signature_bare, MemberInfo.instructions_bare]
  rfl

theorem summary_bare (f : File) : f.bare.summary = f.summary := by
  have hfields : f.bare.fields.map (MemberInfo.fieldSummary f.bare.table)
      = f.fields.map (MemberInfo.fieldSummary f.table) := by
    rw [bare, List.map_map]
    exact List.map_congr_left fun m _ => m.fieldSummary_bare f.table
  have hmethods : f.bare.methods.map f.bare.methodSummary = f.methods.map f.methodSummary := by
    show (f.methods.map MemberInfo.bare).map f.bare.methodSummary = _
    rw [List.map_map]
    exact List.map_congr_left fun m _ => f.methodSummary_bare m
  have hsignature : AttributeInfo.signature? f.bare.attributes
      = AttributeInfo.signature? f.attributes := AttributeInfo.signature?_described _
  rw [summary, summary, hfields, hmethods, hsignature]
  rfl

end File

/-! ## More constants -/

variable {t t' : ConstantTable}

theorem AttributeInfo.isSome_text?_of_signature? {known : List String}
    {as : List AttributeInfo} (has : ∀ a ∈ as, a.Valid t known) {text : UInt16}
    (h : signature? as = some text) : (t.text? text).isSome := by
  have hmem : text ∈ as.filterMap fun a => a.content.signature? := List.mem_of_getLast? h
  obtain ⟨a, ha, hsignature⟩ := List.mem_filterMap.mp hmem
  obtain ⟨_, name, _, hsuits⟩ := has a ha
  cases hcontent : a.content with
  | signature text' =>
    rw [hcontent] at hsignature hsuits
    obtain rfl := Option.some.inj hsignature
    exact hsuits.2.2
  | _ =>
    rw [hcontent] at hsignature
    cases hsignature

theorem AttributeInfo.map_signature?_of_grows (h : t.pool.Grows t'.pool) {known : List String}
    {as : List AttributeInfo} (has : ∀ a ∈ as, a.Valid t known) :
    (signature? as).map t'.text = (signature? as).map t.text :=
  Option.map_congr fun _ htext =>
    ConstantTable.text_of_grows h (isSome_text?_of_signature? has htext)

theorem MemberInfo.signature_of_grows (h : t.pool.Grows t'.pool) {m : MemberInfo}
    {known : List String} (hm : m.Valid t known) : m.signature t' = m.signature t :=
  AttributeInfo.map_signature?_of_grows h hm.attributes

theorem MemberInfo.fieldSummary_of_grows (h : t.pool.Grows t'.pool) {m : MemberInfo}
    {known : List String} (hm : m.Valid t known) : m.fieldSummary t' = m.fieldSummary t := by
  rw [fieldSummary, fieldSummary, ConstantTable.text_of_grows h hm.name,
    ConstantTable.text_of_grows h hm.descriptor, signature_of_grows h hm]

theorem MemberInfo.instructions_of_grows (h : t.pool.Grows t'.pool) {m : MemberInfo}
    (hm : ∀ c ∈ m.code?, (Instruction.decode t.pool c.code).isOk) :
    m.instructions t' = m.instructions t := by
  rw [instructions, instructions]
  cases hcode : m.code? with
  | none => rfl
  | some c =>
    obtain ⟨body, hbody⟩ := exists_of_isOk (hm c hcode)
    have hbody' : Instruction.decode t'.pool c.code = .ok body := h.decode c.code body hbody
    simp only [hbody, hbody']

theorem BootstrapMethod.runs?_of_grows (h : t.pool.Grows t'.pool) {b : BootstrapMethod}
    (hb : ∀ index ∈ b.handle :: b.arguments, t.refers index) : b.runs? t' = b.runs? t := by
  have hargument : (b.arguments[1]?.bind fun index => t'.handle? index)
      = b.arguments[1]?.bind fun index => t.handle? index := by
    cases harg : b.arguments[1]? with
    | none => rfl
    | some index =>
      have hindex := hb index (List.mem_cons_of_mem _ (List.mem_of_getElem? harg))
      exact ConstantTable.handle?_of_grows h hindex
  rw [runs?, runs?, ConstantTable.handle?_of_grows h (hb b.handle List.mem_cons_self)]
  simp only [bind, hargument]

namespace File

variable {f : File}

theorem superName_of_grows (hf : f.Valid) (h : f.table.pool.Grows t'.pool) :
    t'.className? f.superClass = f.table.className? f.superClass := by
  obtain hzero | hsome := hf.superClass
  · rw [hzero, ConstantTable.className?_zero, ConstantTable.className?_zero]
  · exact ConstantTable.className?_of_grows h hsome

theorem isLambdaTarget_of_grows (hf : f.Valid) (h : f.table.pool.Grows t'.pool)
    (member : MemberRef) :
    { f with table := t' }.isLambdaTarget member = f.isLambdaTarget member := by
  have hbodies : f.methods.flatMap (MemberInfo.instructions t')
      = f.methods.flatMap (MemberInfo.instructions f.table) := by
    rw [List.flatMap_def, List.flatMap_def]
    refine congrArg _ (List.map_congr_left fun m hm => ?_)
    exact MemberInfo.instructions_of_grows h (hf.bodies m hm)
  have hlambda (i : Instruction) : { f with table := t' }.lambda? i = f.lambda? i := by
    unfold lambda?
    split
    next n _ _ =>
      show f.bootstraps[n.toNat]?.bind (BootstrapMethod.runs? t') = _
      cases hn : f.bootstraps[n.toNat]? with
      | none => rfl
      | some b =>
        have hb := List.all_eq_true.mp (hf.handles b (List.mem_of_getElem? hn))
        exact BootstrapMethod.runs?_of_grows h hb
    next => rfl
  simp only [isLambdaTarget, hbodies, hlambda]

theorem methodSummary_of_grows (hf : f.Valid) (h : f.table.pool.Grows t'.pool) {m : MemberInfo}
    (hm : m ∈ f.methods) :
    { f with table := t' }.methodSummary m = f.methodSummary m := by
  have hname := ConstantTable.text_of_grows h (hf.methods m hm).name
  have hdescriptor := ConstantTable.text_of_grows h (hf.methods m hm).descriptor
  have hsignature := MemberInfo.signature_of_grows h (hf.methods m hm)
  have hbody := MemberInfo.instructions_of_grows h (hf.bodies m hm)
  have hclass := ConstantTable.className_of_grows h hf.thisClass
  have hsuper := superName_of_grows hf h
  unfold methodSummary
  simp only [isLambdaTarget_of_grows hf h, hname, hdescriptor, hsignature, hbody, hclass, hsuper]

theorem summary_of_grows (hf : f.Valid) (h : f.table.pool.Grows t'.pool) :
    { f with table := t' }.summary = f.summary := by
  have hfields : f.fields.map (MemberInfo.fieldSummary t')
      = f.fields.map (MemberInfo.fieldSummary f.table) :=
    List.map_congr_left fun m hm => MemberInfo.fieldSummary_of_grows h (hf.fields m hm)
  have hmethods : f.methods.map { f with table := t' }.methodSummary
      = f.methods.map f.methodSummary :=
    List.map_congr_left fun m hm => methodSummary_of_grows hf h hm
  have hinterfaces : f.interfaces.map t'.className = f.interfaces.map f.table.className :=
    List.map_congr_left fun index hindex =>
      ConstantTable.className_of_grows h (List.all_eq_true.mp hf.interfaces index hindex)
  have hclass := ConstantTable.className_of_grows h hf.thisClass
  have hsuper := superName_of_grows hf h
  have hsignature := AttributeInfo.map_signature?_of_grows h hf.attributes
  rw [summary, summary]
  simp only [hfields, hmethods, hinterfaces, hclass, hsuper, hsignature]

theorem summary_of_elaborates {f' : File} (hf : f.Valid) (h : f'.Elaborates f) :
    f'.summary = f.summary := by
  obtain ⟨extra, hconstants, hbare⟩ := h
  have hgrows : f.table.pool.Grows f'.table.pool := ConstantTable.grows_pool hconstants
  calc f'.summary
    _ = f'.bare.summary := f'.summary_bare.symm
    _ = { f with table := f'.table }.bare.summary := by rw [hbare]; rfl
    _ = { f with table := f'.table }.summary := summary_bare _
    _ = f.summary := summary_of_grows hf hgrows

/-- Every valid file is read as what it says, whatever other attributes it has
and wherever they are. -/
theorem parse_encode (f : File) (hf : f.Valid) :
    parse f.encode = .ok f.summary ∧
      ∀ f' : File, f'.Valid → f'.Elaborates f → parse f'.encode = parse f.encode := by
  refine ⟨parse_eq_summary hf, fun f' hf' h => ?_⟩
  rw [parse_eq_summary hf', parse_eq_summary hf, summary_of_elaborates hf h]

namespace Sample

def text (s : String) : ConstantInfo :=
  .utf8 ((s.toList.flatMap ModifiedUtf8.charUnits).map UInt16.ofNat)

/-- Among the constants is a wide one, at indices 4 and 5. -/
def boxTable : ConstantTable :=
  ⟨[ text "Code", text "Signature", text "BootstrapMethods", .long 0 1
   , text "a/Box", .className 6
   , text "java/lang/Object", .className 8
   , text "width", text "I", text "()I", .nameAndType 10 11, .field 7 13
   , text "later", text "()V"
   , text "run", text "()Ljava/lang/Runnable;", .nameAndType 17 18, .invokeDynamic 0 19
   , text "now", .nameAndType 21 16, .method 7 22, .methodHandle 6 23, .methodType 16
   , text "java/lang/invoke/LambdaMetafactory", .className 26
   , text "metafactory", text "()Ljava/lang/invoke/CallSite;", .nameAndType 28 29, .method 27 30
   , .methodHandle 6 31
   , text "TT;" ]⟩

def code (bytes : Bytes) (attributes : List RawAttribute) : AttributeInfo :=
  ⟨1, .code { maxStack := 1, maxLocals := 1, code := bytes, handlers := [], attributes }⟩

/-- A class with a getter and a body that makes a lambda, which runs a third
method.  The attributes `extra` come first at the class and at each member, and
`inner` are in the code of the getter. -/
def boxWith (table : ConstantTable) (extra : List AttributeInfo) (inner : List RawAttribute) :
    File :=
  { minor := 0
    major := 52
    table
    access := ⟨0x21⟩
    thisClass := 7
    superClass := 9
    interfaces := []
    fields := [⟨⟨0x02⟩, 10, 11, extra ++ [⟨2, .signature 33⟩]⟩]
    methods :=
      [ ⟨⟨0x01⟩, 10, 12, extra ++ [code [0x2A, 0xB4, 0, 14, 0xAC] inner]⟩
      , ⟨⟨0x01⟩, 15, 16, extra ++ [code [0xBA, 0, 20, 0, 0, 0x57, 0xB1] []]⟩
      , ⟨⟨0x100A⟩, 21, 16, extra ++ [code [0xB1] []]⟩ ]
    attributes := extra ++ [⟨3, .bootstraps [⟨32, [25, 24, 25]⟩]⟩] }

def box : File := boxWith boxTable [] []

/-- The same with notes, whose name is a new constant behind another wide one. -/
def notedBox : File :=
  boxWith ⟨boxTable.constants ++ [.double 0 0, text "Note"]⟩ [⟨36, .raw [1, 2, 3]⟩] [⟨36, [4]⟩]

theorem elaborates_notedBox : notedBox.Elaborates box :=
  ⟨[.double 0 0, text "Note"], rfl, by decide +kernel⟩

theorem parse_encode_box :
    box.Valid ∧ notedBox.Valid ∧ notedBox.Elaborates box ∧
      parse box.encode = .ok box.summary ∧ parse notedBox.encode = parse box.encode ∧
      box.summary.methods.map (fun m => (m.name, m.access.bits, m.lambdaTarget, m.getterOf)) =
        [("width", 0x01, false, some "width"), ("later", 0x01, false, none),
          ("now", 0x100A, true, none)] := by
  have hbox : box.Valid := by decide +kernel
  have hnoted : notedBox.Valid := by decide +kernel
  obtain ⟨hparse, hsame⟩ := parse_encode box hbox
  exact ⟨hbox, hnoted, elaborates_notedBox, hparse,
    hsame notedBox hnoted elaborates_notedBox, by decide +kernel⟩

end Sample
end File
end ClassFile
end Lineage
