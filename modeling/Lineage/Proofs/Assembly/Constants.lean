import Lineage.Assembly.Constants
import Lineage.Proofs.ClassFile.Reading
import Lineage.Proofs.Text.ModifiedUtf8

/-!
Reading a pool back.

The pool that is read has the constant of each symbol at the symbol's index.
Since the parts of every symbol in the pool are in it too, an index resolves
through its parts to the names that its symbol was asked for with.
-/

namespace Lineage
namespace Assembly

open ClassFile (Constant)
open ClassFile.Reader (Reads)

/-- Bytes of text that the constant holds. -/
def Symbol.textLength : Symbol → Nat
  | utf8 text => (ModifiedUtf8.encode text).length
  | _ => 0

/-- The parts of a part are parts. -/
theorem Symbol.closure_subset {s t : Symbol} (h : t ∈ s.closure) : t.closure ⊆ s.closure := by
  cases s <;> simp only [closure, List.mem_cons, List.not_mem_nil, or_false] at h <;>
    rcases h with rfl | rfl | rfl | rfl | rfl | rfl | rfl <;> simp [closure]

namespace SymbolPool

/-- The constant that is read for a symbol. -/
def constant (pool : SymbolPool) : Symbol → Constant
  | .utf8 text => .utf8 text
  | .integer _ => .other
  | .className name => .className (pool.index (.utf8 name))
  | .nameAndType name descriptor =>
    .nameAndType (pool.index (.utf8 name)) (pool.index (.utf8 descriptor))
  | .member kind ref =>
    let owner := pool.index (.className ref.owner)
    let nameAndType := pool.index (.nameAndType ref.name ref.descriptor)
    match kind with
    | .field => .field owner nameAndType
    | .method => .method owner nameAndType
    | .interfaceMethod => .interfaceMethod owner nameAndType
  | .methodHandle kind m ref => .methodHandle kind (pool.index (.member m ref))
  | .methodType _ => .other
  | .invokeDynamic bootstrap name descriptor =>
    .invokeDynamic bootstrap (pool.index (.nameAndType name descriptor))

/-- The pool that is read. -/
def loaded (pool : SymbolPool) : ClassFile.Pool :=
  ⟨(Constant.unusable :: pool.symbols.map pool.constant).toArray⟩

/-- Every text fits its length word, every constant fits an index, and no
constant lacks a part. -/
structure Loadable (pool : SymbolPool) : Prop where
  size : pool.symbols.length < 65535
  texts : ∀ s ∈ pool.symbols, s.textLength < 65536
  closed : ∀ s ∈ pool.symbols, s.closure ⊆ pool.symbols

theorem mem_ofRequests {requests : List Symbol} {s : Symbol} :
    s ∈ (ofRequests requests).symbols ↔ ∃ r ∈ requests, s ∈ r.closure := by
  rw [ofRequests, List.mem_eraseDups, List.mem_flatMap]

theorem closed_ofRequests (requests : List Symbol) :
    ∀ s ∈ (ofRequests requests).symbols, s.closure ⊆ (ofRequests requests).symbols := by
  intro s hs t ht
  obtain ⟨r, hr, hsr⟩ := mem_ofRequests.mp hs
  exact mem_ofRequests.mpr ⟨r, hr, Symbol.closure_subset hsr ht⟩

/-- Asking for more constants leaves the indices that were handed out. -/
theorem index_ofRequests_append {requests : List Symbol} (more : List Symbol) {s : Symbol}
    (hs : s ∈ (ofRequests requests).symbols) :
    (ofRequests (requests ++ more)).index s = (ofRequests requests).index s := by
  have hextends : (ofRequests (requests ++ more)).symbols.idxOf s
      = (ofRequests requests).symbols.idxOf s := by
    unfold ofRequests at hs ⊢
    rw [List.flatMap_append, List.eraseDups_append, List.idxOf_append, if_pos hs]
  rw [index, hextends, index]

/-! ## From bytes to constants -/

variable {pool : SymbolPool}

theorem reads_encodeSymbol {s : Symbol} (hs : s.textLength < 65536) :
    Reads Constant.read (pool.encodeSymbol s) (pool.constant s, 1) := by
  unfold Constant.read
  cases s with
  | utf8 text =>
    have hlen : (ModifiedUtf8.encode text).length
        = (UInt16.ofNat (ModifiedUtf8.encode text).length).toNat :=
      (UInt16.toNat_ofNat_of_lt' hs).symm
    refine (Reads.u1 1).bind <| (Reads.u2 _).bind <| (Reads.slice hlen).bind_end ?_
    rw [ModifiedUtf8.decode_encode]
    exact .pure _
  | integer value =>
    have hskip : Reads (ClassFile.Reader.skip 4) (Bytes.ofUInt32 value) () := .skip rfl
    exact (Reads.u1 3).bind <| hskip.bind_end (.pure (Constant.other, 1))
  | className name => exact (Reads.u1 7).bind <| (Reads.u2 _).bind_end (.pure _)
  | nameAndType name descriptor =>
    exact (Reads.u1 12).bind <| (Reads.u2 _).bind <| (Reads.u2 _).bind_end (.pure _)
  | member kind ref =>
    cases kind with
    | field => exact (Reads.u1 9).bind <| (Reads.u2 _).bind <| (Reads.u2 _).bind_end (.pure _)
    | method => exact (Reads.u1 10).bind <| (Reads.u2 _).bind <| (Reads.u2 _).bind_end (.pure _)
    | interfaceMethod =>
      exact (Reads.u1 11).bind <| (Reads.u2 _).bind <| (Reads.u2 _).bind_end (.pure _)
  | methodHandle kind m ref =>
    exact (Reads.u1 15).bind <| (Reads.u1 kind).bind <| (Reads.u2 _).bind_end (.pure _)
  | methodType descriptor =>
    have hskip : Reads (ClassFile.Reader.skip 2)
        (Bytes.ofUInt16 (pool.index (.utf8 descriptor))) () := .skip rfl
    exact (Reads.u1 16).bind <| hskip.bind_end (.pure (Constant.other, 1))
  | invokeDynamic bootstrap name descriptor =>
    exact (Reads.u1 18).bind <| (Reads.u2 bootstrap).bind <| (Reads.u2 _).bind_end (.pure _)

theorem reads_readEntries {symbols : List Symbol} (h : ∀ s ∈ symbols, s.textLength < 65536) :
    Reads (ClassFile.Pool.readEntries symbols.length) (symbols.flatMap pool.encodeSymbol)
      (symbols.map pool.constant) := by
  induction symbols with
  | nil =>
    rw [List.length_nil, ClassFile.Pool.readEntries]
    exact .pure []
  | cons s symbols ih =>
    rw [List.length_cons, ClassFile.Pool.readEntries, List.flatMap_cons]
    refine (reads_encodeSymbol (h s List.mem_cons_self)).bind ?_
    exact (ih fun t ht => h t (List.mem_cons_of_mem s ht)).bind_end (.pure _)

theorem reads_encode (hpool : pool.Loadable) :
    Reads ClassFile.Pool.read pool.encode pool.loaded := by
  have hcount : (UInt16.ofNat (pool.symbols.length + 1)).toNat - 1 = pool.symbols.length := by
    have hsize : pool.symbols.length + 1 < 65536 := Nat.succ_lt_succ hpool.size
    rw [UInt16.toNat_ofNat_of_lt' hsize, Nat.add_sub_cancel]
  refine (Reads.u2 (UInt16.ofNat (pool.symbols.length + 1))).bind ?_
  rw [hcount]
  exact (reads_readEntries hpool.texts).bind_end (.pure _)

/-! ## From indices to names -/

theorem toNat_index (hpool : pool.Loadable) {s : Symbol} (hs : s ∈ pool.symbols) :
    (pool.index s).toNat = pool.symbols.idxOf s + 1 := by
  have hlt : pool.symbols.idxOf s < pool.symbols.length := List.idxOf_lt_length_of_mem hs
  have hsize := hpool.size
  exact UInt16.toNat_ofNat_of_lt' (show _ < 65536 by omega)

theorem get_index (hpool : pool.Loadable) {s : Symbol} (hs : s ∈ pool.symbols) :
    pool.loaded.get (pool.index s) = .ok (pool.constant s) := by
  have hlt : pool.symbols.idxOf s < pool.symbols.length := List.idxOf_lt_length_of_mem hs
  have hentry : pool.loaded.entries[(pool.index s).toNat]? = some (pool.constant s) := by
    rw [toNat_index hpool hs, loaded, List.getElem?_toArray, List.getElem?_cons_succ,
      List.getElem?_map, List.getElem?_eq_getElem hlt, List.getElem_idxOf hlt]
    rfl
  rw [ClassFile.Pool.get, hentry]

theorem utf8_index (hpool : pool.Loadable) {text : String} (h : .utf8 text ∈ pool.symbols) :
    pool.loaded.utf8 (pool.index (.utf8 text)) = .ok text := by
  rw [ClassFile.Pool.utf8, get_index hpool h]
  rfl

theorem className_index (hpool : pool.Loadable) {name : String}
    (h : .className name ∈ pool.symbols) :
    pool.loaded.className (pool.index (.className name)) = .ok name := by
  have hname : .utf8 name ∈ pool.symbols := hpool.closed _ h (by simp [Symbol.closure])
  rw [ClassFile.Pool.className, get_index hpool h]
  exact utf8_index hpool hname

theorem className?_index (hpool : pool.Loadable) {name : Option String}
    (h : ∀ n ∈ name, .className n ∈ pool.symbols) :
    pool.loaded.className? ((name.map fun n => pool.index (.className n)).getD 0) = .ok name := by
  cases name with
  | none => rfl
  | some n =>
    have hn : .className n ∈ pool.symbols := h n rfl
    have hne : pool.index (.className n) ≠ 0 := by
      intro hzero
      have hindex := toNat_index hpool hn
      rw [hzero] at hindex
      exact absurd hindex (Nat.succ_ne_zero _).symm
    show pool.loaded.className? (pool.index (.className n)) = .ok (some n)
    rw [ClassFile.Pool.className?, if_neg hne, className_index hpool hn]
    rfl

theorem nameAndType_index (hpool : pool.Loadable) {name descriptor : String}
    (h : .nameAndType name descriptor ∈ pool.symbols) :
    pool.loaded.nameAndType (pool.index (.nameAndType name descriptor))
      = .ok (name, descriptor) := by
  have hname : .utf8 name ∈ pool.symbols := hpool.closed _ h (by simp [Symbol.closure])
  have hdesc : .utf8 descriptor ∈ pool.symbols := hpool.closed _ h (by simp [Symbol.closure])
  rw [ClassFile.Pool.nameAndType, get_index hpool h]
  simp only [bind, Except.bind, constant, utf8_index hpool hname, utf8_index hpool hdesc]

theorem member_index (hpool : pool.Loadable) {kind : MemberKind} {ref : MemberRef}
    (h : .member kind ref ∈ pool.symbols) :
    pool.loaded.member (pool.index (.member kind ref)) = .ok ref := by
  have howner : .className ref.owner ∈ pool.symbols :=
    hpool.closed _ h (by simp [Symbol.closure])
  have hnat : .nameAndType ref.name ref.descriptor ∈ pool.symbols :=
    hpool.closed _ h (by simp [Symbol.closure])
  rw [ClassFile.Pool.member, get_index hpool h]
  cases kind <;>
    simp only [bind, Except.bind, constant, className_index hpool howner,
      nameAndType_index hpool hnat]

theorem methodHandle?_index (hpool : pool.Loadable) {kind : UInt8} {m : MemberKind}
    {ref : MemberRef} (h : .methodHandle kind m ref ∈ pool.symbols) :
    pool.loaded.methodHandle? (pool.index (.methodHandle kind m ref)) = .ok (some ref) := by
  have hmember : .member m ref ∈ pool.symbols := hpool.closed _ h (by simp [Symbol.closure])
  rw [ClassFile.Pool.methodHandle?, get_index hpool h]
  show (pool.loaded.member (pool.index (.member m ref))).map some = _
  rw [member_index hpool hmember]
  rfl

theorem invokeDynamic_index (hpool : pool.Loadable) {bootstrap : UInt16}
    {name descriptor : String} (h : .invokeDynamic bootstrap name descriptor ∈ pool.symbols) :
    pool.loaded.invokeDynamic (pool.index (.invokeDynamic bootstrap name descriptor))
      = .ok (bootstrap, name, descriptor) := by
  have hnat : .nameAndType name descriptor ∈ pool.symbols :=
    hpool.closed _ h (by simp [Symbol.closure])
  rw [ClassFile.Pool.invokeDynamic, get_index hpool h]
  simp only [bind, Except.bind, constant, nameAndType_index hpool hnat]

end SymbolPool
end Assembly
end Lineage
