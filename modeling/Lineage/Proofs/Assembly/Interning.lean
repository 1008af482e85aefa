import Mathlib.Data.List.Basic
import Mathlib.Data.List.Induction
import Lineage.Proofs.Assembly.Constants

/-!
Writing a pool constant by constant.

A writer keeps the bytes of the constants so far and the index of each.  It is
asked for one constant after the other.  For one that it knows it hands out the
index again; before a new one it asks itself for the parts, each of which may
have parts of its own, and then appends the constant under the next index.

Whatever is asked for, what has been written is the pool of the requests, and
an index that has been handed out is the index of its constant there.  So the
bytes can be read at any time, and every index leads back to what it was handed
out for.
-/

namespace Lineage
namespace Assembly

open ClassFile (Constant)

/-- All that has to be in a pool before the constant. -/
def Symbol.parts (s : Symbol) : List Symbol := s.closure.dropLast

theorem Symbol.closure_eq (s : Symbol) : s.closure = s.parts ++ [s] := by
  cases s <;> rfl

theorem Symbol.not_mem_parts (s : Symbol) : s ∉ s.parts := by
  cases s <;> simp [parts, closure]

/-! ## Pools that grow -/

namespace SymbolPool

def enter (pool : SymbolPool) (s : Symbol) : SymbolPool :=
  if s ∈ pool.symbols then pool else ⟨pool.symbols ++ [s]⟩

def enterAll (pool : SymbolPool) (symbols : List Symbol) : SymbolPool := symbols.foldl enter pool

variable {pool : SymbolPool} {s t : Symbol} {symbols : List Symbol}

theorem enterAll_append (pool : SymbolPool) (symbols more : List Symbol) :
    pool.enterAll (symbols ++ more) = (pool.enterAll symbols).enterAll more :=
  List.foldl_append

theorem enter_of_not_mem (hs : s ∉ pool.symbols) : pool.enter s = ⟨pool.symbols ++ [s]⟩ :=
  if_neg hs

theorem enterAll_of_subset (hsub : symbols ⊆ pool.symbols) : pool.enterAll symbols = pool := by
  induction symbols with
  | nil => rfl
  | cons s symbols ih =>
    rw [List.cons_subset] at hsub
    rw [enterAll, List.foldl_cons, enter, if_pos hsub.1]
    exact ih hsub.2

theorem isPrefix_enter (pool : SymbolPool) (s : Symbol) :
    pool.symbols <+: (pool.enter s).symbols := by
  rw [enter]
  split
  · exact List.prefix_rfl
  · exact List.prefix_append _ _

theorem isPrefix_enterAll (pool : SymbolPool) (symbols : List Symbol) :
    pool.symbols <+: (pool.enterAll symbols).symbols := by
  induction symbols generalizing pool with
  | nil => exact List.prefix_rfl
  | cons s symbols ih => exact (pool.isPrefix_enter s).trans (ih (pool.enter s))

theorem mem_enter : t ∈ (pool.enter s).symbols ↔ t ∈ pool.symbols ∨ t = s := by
  rw [enter]
  split
  · next hs => exact ⟨Or.inl, fun ht => ht.elim id fun heq => heq ▸ hs⟩
  · rw [List.mem_append, List.mem_singleton]

theorem mem_enterAll :
    t ∈ (pool.enterAll symbols).symbols ↔ t ∈ pool.symbols ∨ t ∈ symbols := by
  induction symbols generalizing pool with
  | nil => simp [enterAll]
  | cons s symbols ih =>
    show t ∈ ((pool.enter s).enterAll symbols).symbols ↔ _
    rw [ih, mem_enter, List.mem_cons, or_assoc]

/-- Requests enter their constants one after the other. -/
theorem ofRequests_eq_enterAll (requests : List Symbol) :
    ofRequests requests = enterAll ⟨[]⟩ (requests.flatMap Symbol.closure) := by
  rw [ofRequests]
  generalize requests.flatMap Symbol.closure = symbols
  induction symbols using List.reverseRecOn with
  | nil => rfl
  | append_singleton symbols s ih =>
    rw [enterAll_append, ← ih, List.eraseDups_append]
    show _ = enter _ s
    by_cases hs : s ∈ symbols <;> simp [enter, List.removeAll, List.eraseDups_cons, hs]

theorem ofRequests_concat (requests : List Symbol) (s : Symbol) :
    ofRequests (requests ++ [s]) = (ofRequests requests).enterAll s.closure := by
  rw [ofRequests_eq_enterAll, ofRequests_eq_enterAll, List.flatMap_append, enterAll_append,
    List.flatMap_singleton]

/-! ## What stays as it is -/

theorem index_of_isPrefix {pool pool' : SymbolPool} (hp : pool.symbols <+: pool'.symbols)
    (hs : s ∈ pool.symbols) : pool'.index s = pool.index s := by
  obtain ⟨more, hmore⟩ := hp
  rw [index, index, ← hmore, List.idxOf_append_of_mem hs]

/-- More constants leave the indices of those that have been entered. -/
theorem index_enterAll (hs : s ∈ symbols) {more : List Symbol} :
    ((pool.enterAll symbols).enterAll more).index s = (pool.enterAll symbols).index s :=
  index_of_isPrefix (isPrefix_enterAll _ more) (mem_enterAll.mpr (Or.inr hs))

/-- The bytes of a constant are settled by its parts. -/
theorem encodeSymbol_of_isPrefix {pool pool' : SymbolPool} (hp : pool.symbols <+: pool'.symbols)
    (hs : s.parts ⊆ pool.symbols) : pool'.encodeSymbol s = pool.encodeSymbol s := by
  have hindex : ∀ t ∈ s.parts, pool'.index t = pool.index t :=
    fun t ht => index_of_isPrefix hp (hs ht)
  cases s with
  | utf8 | integer => rfl
  | className | nameAndType | member | methodHandle | methodType | invokeDynamic =>
    simp only [Symbol.parts, Symbol.closure, List.dropLast_cons_cons, List.dropLast_singleton,
      List.forall_mem_cons] at hindex
    simp only [encodeSymbol, hindex]

theorem index_inj (hpool : pool.Loadable) (hs : s ∈ pool.symbols) (ht : t ∈ pool.symbols) :
    pool.index s = pool.index t ↔ s = t := by
  constructor
  · intro heq
    have hplace := congrArg UInt16.toNat heq
    rw [toNat_index hpool hs, toNat_index hpool ht, Nat.add_right_cancel_iff] at hplace
    exact (List.idxOf_inj hs).mp hplace
  · exact congrArg pool.index

end SymbolPool

/-! ## The writer -/

structure PoolWriter where
  bytes : Bytes
  next : UInt16
  interned : List (Symbol × UInt16)
  deriving DecidableEq, Repr

namespace PoolWriter

def empty : PoolWriter := { bytes := [], next := 1, interned := [] }

/-- Hand out the index of a constant.  For a new one `body` writes the parts, and
answers the bytes of the constant itself. -/
def intern (s : Symbol) (body : StateM PoolWriter Bytes) : StateM PoolWriter UInt16 := fun w =>
  match w.interned.lookup s with
  | some index => (index, w)
  | none =>
    let (entry, w) := body w
    (w.next,
      { bytes := w.bytes ++ entry, next := w.next + 1, interned := (s, w.next) :: w.interned })

def utf8 (text : String) : StateM PoolWriter UInt16 :=
  intern (.utf8 text) do
    let bytes := ModifiedUtf8.encode text
    return 1 :: Bytes.ofNat16 bytes.length ++ bytes

def integer (value : UInt32) : StateM PoolWriter UInt16 :=
  intern (.integer value) do
    return 3 :: Bytes.ofUInt32 value

def className (name : String) : StateM PoolWriter UInt16 :=
  intern (.className name) do
    let name ← utf8 name
    return 7 :: Bytes.ofUInt16 name

def nameAndType (name descriptor : String) : StateM PoolWriter UInt16 :=
  intern (.nameAndType name descriptor) do
    let name ← utf8 name
    let descriptor ← utf8 descriptor
    return 12 :: Bytes.ofUInt16 name ++ Bytes.ofUInt16 descriptor

def member (kind : MemberKind) (ref : MemberRef) : StateM PoolWriter UInt16 :=
  intern (.member kind ref) do
    let owner ← className ref.owner
    let nameAndType ← nameAndType ref.name ref.descriptor
    return kind.tag :: Bytes.ofUInt16 owner ++ Bytes.ofUInt16 nameAndType

def methodHandle (kind : UInt8) (m : MemberKind) (ref : MemberRef) : StateM PoolWriter UInt16 :=
  intern (.methodHandle kind m ref) do
    let member ← member m ref
    return 15 :: kind :: Bytes.ofUInt16 member

def methodType (descriptor : String) : StateM PoolWriter UInt16 :=
  intern (.methodType descriptor) do
    let descriptor ← utf8 descriptor
    return 16 :: Bytes.ofUInt16 descriptor

def invokeDynamic (bootstrap : UInt16) (name descriptor : String) : StateM PoolWriter UInt16 :=
  intern (.invokeDynamic bootstrap name descriptor) do
    let nameAndType ← nameAndType name descriptor
    return 18 :: Bytes.ofUInt16 bootstrap ++ Bytes.ofUInt16 nameAndType

def request : Symbol → StateM PoolWriter UInt16
  | .utf8 text => utf8 text
  | .integer value => integer value
  | .className name => className name
  | .nameAndType name descriptor => nameAndType name descriptor
  | .member kind ref => member kind ref
  | .methodHandle kind m ref => methodHandle kind m ref
  | .methodType descriptor => methodType descriptor
  | .invokeDynamic bootstrap name descriptor => invokeDynamic bootstrap name descriptor

/-- The writer after some requests. -/
def run (requests : List Symbol) : PoolWriter :=
  requests.foldl (fun w s => (request s w).2) empty

/-- The index that a request is answered with after some others. -/
def answer (before : List Symbol) (s : Symbol) : UInt16 := (request s (run before)).1

theorem run_concat (requests : List Symbol) (s : Symbol) :
    run (requests ++ [s]) = (request s (run requests)).2 := by
  simp [run]

/-! ## The pool that is written -/

/-- The writer has written the pool. -/
structure Follows (w : PoolWriter) (pool : SymbolPool) : Prop where
  bytes : w.bytes = pool.symbols.flatMap pool.encodeSymbol
  next : w.next = UInt16.ofNat (pool.symbols.length + 1)
  lookup : ∀ s, w.interned.lookup s = if s ∈ pool.symbols then some (pool.index s) else none
  length : w.interned.length = pool.symbols.length
  closed : ∀ s ∈ pool.symbols, s.closure ⊆ pool.symbols

theorem follows_empty : Follows empty ⟨[]⟩ where
  bytes := rfl
  next := rfl
  lookup _ := rfl
  length := rfl
  closed _ hs := absurd hs List.not_mem_nil

/-- A constant whose parts are there is appended. -/
theorem Follows.append {w : PoolWriter} {pool : SymbolPool} (h : Follows w pool) {s : Symbol}
    (hs : s ∉ pool.symbols) (hparts : s.parts ⊆ pool.symbols) :
    Follows
      { bytes := w.bytes ++ pool.encodeSymbol s
        next := w.next + 1
        interned := (s, w.next) :: w.interned } (pool.enter s) ∧
      w.next = (pool.enter s).index s := by
  have hprefix := pool.isPrefix_enter s
  rw [SymbolPool.enter_of_not_mem hs] at hprefix ⊢
  have hindex : (⟨pool.symbols ++ [s]⟩ : SymbolPool).index s = w.next := by
    rw [SymbolPool.index, List.idxOf_append_of_notMem hs, List.idxOf_cons_self, h.next]
  refine ⟨{ bytes := ?_, next := ?_, lookup := fun t => ?_, length := ?_, closed := ?_ },
    hindex.symm⟩
  · have hsame : pool.symbols.flatMap (⟨pool.symbols ++ [s]⟩ : SymbolPool).encodeSymbol =
        pool.symbols.flatMap pool.encodeSymbol := by
      refine List.flatMap_congr fun t ht => SymbolPool.encodeSymbol_of_isPrefix hprefix ?_
      exact fun u hu => h.closed t ht (t.closure_eq ▸ List.mem_append_left _ hu)
    rw [List.flatMap_append, List.flatMap_singleton, hsame, ← h.bytes,
      SymbolPool.encodeSymbol_of_isPrefix hprefix hparts]
  · rw [h.next, List.length_append, List.length_singleton]
    exact (UInt16.ofNat_add _ 1).symm
  · rw [List.lookup_cons, h.lookup t]
    by_cases heq : t = s
    · subst heq
      simp [hindex]
    · rw [beq_eq_false_iff_ne.mpr heq]
      by_cases ht : t ∈ pool.symbols
      · simp [ht, SymbolPool.index_of_isPrefix hprefix ht]
      · simp [heq, ht]
  · simp [h.length]
  · intro t ht
    rcases List.mem_append.mp ht with ht | ht
    · exact List.Subset.trans (h.closed t ht) hprefix.subset
    · rw [List.mem_singleton.mp ht, s.closure_eq]
      exact List.append_subset.mpr ⟨List.Subset.trans hparts hprefix.subset,
        List.subset_append_right _ _⟩

/-- The call enters the constant after all of its parts, and answers its
index. -/
def Hands (call : StateM PoolWriter UInt16) (s : Symbol) : Prop :=
  ∀ w pool, Follows w pool →
    Follows (call w).2 (pool.enterAll s.closure) ∧ (call w).1 = (pool.enterAll s.closure).index s

/-- A constant that is there has its parts there, so nothing is entered. -/
theorem hands_intern {s : Symbol} {body : StateM PoolWriter Bytes}
    (hbody : ∀ w pool, Follows w pool → Follows (body w).2 (pool.enterAll s.parts) ∧
      (body w).1 = (pool.enterAll s.parts).encodeSymbol s) : Hands (intern s body) s := by
  intro w pool h
  have hlookup := h.lookup s
  rw [intern]
  by_cases hs : s ∈ pool.symbols
  · rw [if_pos hs] at hlookup
    rw [hlookup, SymbolPool.enterAll_of_subset (h.closed s hs)]
    exact ⟨h, rfl⟩
  · rw [if_neg hs] at hlookup
    obtain ⟨hparts, hentry⟩ := hbody w pool h
    have hnew : s ∉ (pool.enterAll s.parts).symbols := by
      rw [SymbolPool.mem_enterAll, not_or]
      exact ⟨hs, s.not_mem_parts⟩
    have hthere : s.parts ⊆ (pool.enterAll s.parts).symbols :=
      fun t ht => SymbolPool.mem_enterAll.mpr (Or.inr ht)
    have happended := hparts.append hnew hthere
    rw [← hentry] at happended
    rw [hlookup, s.closure_eq, SymbolPool.enterAll_append]
    exact happended

theorem hands_utf8 (text : String) : Hands (utf8 text) (.utf8 text) :=
  hands_intern fun _ _ h => ⟨h, rfl⟩

theorem hands_integer (value : UInt32) : Hands (integer value) (.integer value) :=
  hands_intern fun _ _ h => ⟨h, rfl⟩

theorem hands_className (name : String) : Hands (className name) (.className name) := by
  refine hands_intern fun w pool h => ?_
  obtain ⟨hw, hindex⟩ := hands_utf8 name w pool h
  exact ⟨hw, congrArg (fun i => 7 :: Bytes.ofUInt16 i) hindex⟩

theorem hands_nameAndType (name descriptor : String) :
    Hands (nameAndType name descriptor) (.nameAndType name descriptor) := by
  refine hands_intern fun w pool h => ?_
  obtain ⟨hw, hname⟩ := hands_utf8 name w pool h
  obtain ⟨hw', hdescriptor⟩ := hands_utf8 descriptor _ _ hw
  rw [← SymbolPool.index_enterAll (Symbol.mem_closure _)] at hname
  exact ⟨hw', congrArg₂ (fun i j => 12 :: Bytes.ofUInt16 i ++ Bytes.ofUInt16 j) hname hdescriptor⟩

theorem hands_member (kind : MemberKind) (ref : MemberRef) :
    Hands (member kind ref) (.member kind ref) := by
  refine hands_intern fun w pool h => ?_
  obtain ⟨hw, howner⟩ := hands_className ref.owner w pool h
  obtain ⟨hw', hnat⟩ := hands_nameAndType ref.name ref.descriptor _ _ hw
  rw [← SymbolPool.index_enterAll (Symbol.mem_closure _)] at howner
  exact ⟨hw', congrArg₂ (fun i j => kind.tag :: Bytes.ofUInt16 i ++ Bytes.ofUInt16 j) howner hnat⟩

theorem hands_methodHandle (kind : UInt8) (m : MemberKind) (ref : MemberRef) :
    Hands (methodHandle kind m ref) (.methodHandle kind m ref) := by
  refine hands_intern fun w pool h => ?_
  obtain ⟨hw, hmember⟩ := hands_member m ref w pool h
  exact ⟨hw, congrArg (fun i => 15 :: kind :: Bytes.ofUInt16 i) hmember⟩

theorem hands_methodType (descriptor : String) :
    Hands (methodType descriptor) (.methodType descriptor) := by
  refine hands_intern fun w pool h => ?_
  obtain ⟨hw, hindex⟩ := hands_utf8 descriptor w pool h
  exact ⟨hw, congrArg (fun i => 16 :: Bytes.ofUInt16 i) hindex⟩

theorem hands_invokeDynamic (bootstrap : UInt16) (name descriptor : String) :
    Hands (invokeDynamic bootstrap name descriptor) (.invokeDynamic bootstrap name descriptor) := by
  refine hands_intern fun w pool h => ?_
  obtain ⟨hw, hnat⟩ := hands_nameAndType name descriptor w pool h
  exact ⟨hw, congrArg (fun i => 18 :: Bytes.ofUInt16 bootstrap ++ Bytes.ofUInt16 i) hnat⟩

theorem hands_request (s : Symbol) : Hands (request s) s := by
  cases s with
  | utf8 text => exact hands_utf8 text
  | integer value => exact hands_integer value
  | className name => exact hands_className name
  | nameAndType name descriptor => exact hands_nameAndType name descriptor
  | member kind ref => exact hands_member kind ref
  | methodHandle kind m ref => exact hands_methodHandle kind m ref
  | methodType descriptor => exact hands_methodType descriptor
  | invokeDynamic bootstrap name descriptor => exact hands_invokeDynamic bootstrap name descriptor

/-! ## Runs -/

/-- What has been written is the pool of the requests. -/
theorem follows_run (requests : List Symbol) :
    Follows (run requests) (.ofRequests requests) := by
  induction requests using List.reverseRecOn with
  | nil => exact follows_empty
  | append_singleton requests s ih =>
    rw [run_concat, SymbolPool.ofRequests_concat]
    exact (hands_request s _ _ ih).1

theorem bytes_run (requests : List Symbol) :
    Bytes.ofUInt16 (run requests).next ++ (run requests).bytes =
      (SymbolPool.ofRequests requests).encode := by
  rw [(follows_run requests).next, (follows_run requests).bytes]
  rfl

/-- An index that has been handed out stays that of its constant. -/
theorem answer_eq (before after : List Symbol) (s : Symbol) :
    answer before s = (SymbolPool.ofRequests (before ++ s :: after)).index s := by
  have hmem : s ∈ (SymbolPool.ofRequests (before ++ [s])).symbols :=
    SymbolPool.mem_ofRequests.mpr ⟨s, by simp, s.mem_closure⟩
  have hkept := SymbolPool.index_ofRequests_append after hmem
  rw [List.append_assoc, List.singleton_append] at hkept
  rw [hkept, SymbolPool.ofRequests_concat]
  exact (hands_request s _ _ (follows_run before)).2

theorem length_run_le (before after : List Symbol) :
    (run before).interned.length ≤ (run (before ++ after)).interned.length := by
  rw [(follows_run _).length, (follows_run _).length, SymbolPool.ofRequests_eq_enterAll,
    SymbolPool.ofRequests_eq_enterAll, List.flatMap_append, SymbolPool.enterAll_append]
  exact (SymbolPool.isPrefix_enterAll _ _).length_le

end PoolWriter

/-! ## Reading while writing -/

/-- What the constant of a member is read as. -/
def MemberKind.constant : MemberKind → UInt16 → UInt16 → Constant
  | field => .field
  | method => .method
  | interfaceMethod => .interfaceMethod

/-- The index leads to the member, through a constant of its kind. -/
def ResolvesMember (pool : ClassFile.Pool) (index : UInt16) (kind : MemberKind)
    (ref : MemberRef) : Prop :=
  pool.member index = .ok ref ∧
    ∃ owner nameAndType, pool.get index = .ok (kind.constant owner nameAndType)

/-- The index leads to all that the constant says, as far as pools that are read
keep it. -/
def Resolves (pool : ClassFile.Pool) (index : UInt16) : Symbol → Prop
  | .utf8 text => pool.utf8 index = .ok text
  | .integer _ => pool.get index = .ok .other
  | .className name => pool.className index = .ok name
  | .nameAndType name descriptor => pool.nameAndType index = .ok (name, descriptor)
  | .member kind ref => ResolvesMember pool index kind ref
  | .methodHandle kind m ref =>
    pool.methodHandle? index = .ok (some ref) ∧
      ∃ member, pool.get index = .ok (.methodHandle kind member) ∧ ResolvesMember pool member m ref
  | .methodType _ => pool.get index = .ok .other
  | .invokeDynamic bootstrap name descriptor =>
    pool.invokeDynamic index = .ok (bootstrap, name, descriptor)

namespace SymbolPool

variable {pool : SymbolPool}

theorem resolvesMember_index (hpool : pool.Loadable) {kind : MemberKind} {ref : MemberRef}
    (h : .member kind ref ∈ pool.symbols) :
    ResolvesMember pool.loaded (pool.index (.member kind ref)) kind ref := by
  refine ⟨member_index hpool h, pool.index (.className ref.owner),
    pool.index (.nameAndType ref.name ref.descriptor), ?_⟩
  rw [get_index hpool h]
  cases kind <;> rfl

/-- The index of a constant leads back to it. -/
theorem resolves_index (hpool : pool.Loadable) {s : Symbol} (hs : s ∈ pool.symbols) :
    Resolves pool.loaded (pool.index s) s := by
  cases s with
  | utf8 text => exact utf8_index hpool hs
  | integer value => exact get_index hpool hs
  | className name => exact className_index hpool hs
  | nameAndType name descriptor => exact nameAndType_index hpool hs
  | member kind ref => exact resolvesMember_index hpool hs
  | methodHandle kind m ref =>
    have hmember : .member m ref ∈ pool.symbols := hpool.closed _ hs (by simp [Symbol.closure])
    exact ⟨methodHandle?_index hpool hs, _, get_index hpool hs, resolvesMember_index hpool hmember⟩
  | methodType descriptor => exact get_index hpool hs
  | invokeDynamic bootstrap name descriptor => exact invokeDynamic_index hpool hs

end SymbolPool

namespace PoolWriter

/-- As long as constants fit indices and texts their length words, what has been
written can be read at any time, with one entry for each index.  Every index that
has been handed out leads to what it was asked for, two are the same just when
they were asked for the same constant, and the bytes are those of the pool of the
requests. -/
theorem read_run {requests before : List Symbol}
    (hcount : (run requests).interned.length < 65535)
    (htexts : ∀ s ∈ requests, ∀ t ∈ s.closure, t.textLength < 65536)
    (hbefore : before <+: requests) :
    ∃ pool, ClassFile.Pool.read (Bytes.ofUInt16 (run before).next ++ (run before).bytes) =
        .ok (pool, []) ∧
      pool.entries.size = (run before).next.toNat ∧
      (∀ earlier s later, before = earlier ++ s :: later →
        Resolves pool (answer earlier s) s) ∧
      (∀ earlier s later earlier' s' later', before = earlier ++ s :: later →
        before = earlier' ++ s' :: later' → (answer earlier s = answer earlier' s' ↔ s = s')) ∧
      Bytes.ofUInt16 (run before).next ++ (run before).bytes =
        (SymbolPool.ofRequests before).encode := by
  obtain ⟨after, rfl⟩ := hbefore
  have hsize : (SymbolPool.ofRequests before).symbols.length < 65535 := by
    rw [← (follows_run before).length]
    exact Nat.lt_of_le_of_lt (length_run_le before after) hcount
  have hpool : (SymbolPool.ofRequests before).Loadable :=
    { size := hsize
      texts := fun t ht => by
        obtain ⟨s, hs, hts⟩ := SymbolPool.mem_ofRequests.mp ht
        exact htexts s (List.mem_append_left _ hs) t hts
      closed := SymbolPool.closed_ofRequests before }
  have hanswer : ∀ earlier s later, before = earlier ++ s :: later →
      s ∈ (SymbolPool.ofRequests before).symbols ∧
        answer earlier s = (SymbolPool.ofRequests before).index s := by
    intro earlier s later hsplit
    refine ⟨SymbolPool.mem_ofRequests.mpr ⟨s, by simp [hsplit], s.mem_closure⟩, ?_⟩
    rw [hsplit]
    exact answer_eq earlier later s
  refine ⟨(SymbolPool.ofRequests before).loaded, ?_, ?_, fun earlier s later hsplit => ?_,
    fun earlier s later earlier' s' later' hsplit hsplit' => ?_, bytes_run before⟩
  · rw [bytes_run]
    exact (SymbolPool.reads_encode hpool).eq_ok
  · rw [(follows_run before).next, UInt16.toNat_ofNat_of_lt' (show _ < 65536 by omega)]
    simp [SymbolPool.loaded]
  · obtain ⟨hs, hindex⟩ := hanswer earlier s later hsplit
    rw [hindex]
    exact SymbolPool.resolves_index hpool hs
  · obtain ⟨hs, hindex⟩ := hanswer earlier s later hsplit
    obtain ⟨hs', hindex'⟩ := hanswer earlier' s' later' hsplit'
    rw [hindex, hindex']
    exact SymbolPool.index_inj hpool hs hs'

namespace Sample

def run : MemberRef := ⟨"Task", "run", "()V"⟩

/-- A handle, its method with another tag, the class of both, and the handle
again. -/
def requests : List Symbol :=
  [.methodHandle 9 .interfaceMethod run, .member .method run, .className "Task",
    .methodHandle 9 .interfaceMethod run]

/-- The second method shares all but its own constant with the first, and the
handle is not written again. -/
theorem read_run_handles : (PoolWriter.run requests).interned.length < 65535 ∧
    (∀ s ∈ requests, ∀ t ∈ s.closure, t.textLength < 65536) ∧
    (PoolWriter.run requests).interned.length = 8 ∧
    answer [] (.methodHandle 9 .interfaceMethod run) =
      answer (requests.take 3) (.methodHandle 9 .interfaceMethod run) ∧
    ∃ pool, ClassFile.Pool.read (Bytes.ofUInt16 (PoolWriter.run requests).next ++
        (PoolWriter.run requests).bytes) = .ok (pool, []) ∧
      pool.methodHandle? (answer [] (.methodHandle 9 .interfaceMethod run)) = .ok (some run) := by
  have hcount : (PoolWriter.run requests).interned.length < 65535 := by decide +kernel
  have htexts : ∀ s ∈ requests, ∀ t ∈ s.closure, t.textLength < 65536 := by decide +kernel
  obtain ⟨pool, hread, _, hresolves, hsame, _⟩ := read_run hcount htexts List.prefix_rfl
  refine ⟨hcount, htexts, by decide +kernel, ?_, pool, hread, ?_⟩
  · exact (hsame [] _ _ (requests.take 3) _ _ rfl rfl).mpr rfl
  · exact (hresolves [] _ _ rfl).1

end Sample

end PoolWriter
end Assembly
end Lineage
