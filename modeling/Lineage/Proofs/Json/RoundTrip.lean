import Lineage.Json.Reader
import Lineage.Proofs.Json.Scanning

/-!
Printed values read back.

This holds of values whose strings are texts and whose numbers are whole: halves
of surrogate pairs may be put together when they are read, and other numbers are
kept as they are written, whatever that is.
-/

namespace Lineage
namespace JsonValue

open JsonToken (Spells separated)

/-- All strings are texts, and all numbers are whole. -/
inductive Plain : JsonValue → Prop
  | null : Plain .null
  | bool (b : Bool) : Plain (.bool b)
  | number (n : Nat) : Plain (.ofNat n)
  | string (s : String) : Plain (.ofString s)
  | array {items : List JsonValue} (h : ∀ v ∈ items, Plain v) : Plain (.array items)
  | object {members : List (String × JsonValue)} (h : ∀ m ∈ members, Plain m.2) :
    Plain (.ofMembers members)

mutual

/-- The tokens that a value is written with. -/
def tokens : JsonValue → List JsonToken
  | null => [.null]
  | bool b => [.bool b]
  | number literal => [.number literal]
  | string s => [.string s]
  | array items => .openBracket :: separated (itemTokens items) ++ [.closeBracket]
  | object members => .openBrace :: separated (memberTokens members) ++ [.closeBrace]

def itemTokens : List JsonValue → List (List JsonToken)
  | [] => []
  | item :: items => tokens item :: itemTokens items

def memberTokens : List (List JsonChar × JsonValue) → List (List JsonToken)
  | [] => []
  | (name, value) :: members =>
    (.string name :: .colon :: tokens value) :: memberTokens members

end

theorem itemTokens_eq_map (items : List JsonValue) : itemTokens items = items.map tokens := by
  induction items with
  | nil => rfl
  | cons item items ih => rw [itemTokens, ih, List.map_cons]

theorem memberTokens_eq_map (members : List (List JsonChar × JsonValue)) :
    memberTokens members = members.map fun m => .string m.1 :: .colon :: tokens m.2 := by
  induction members with
  | nil => rfl
  | cons m members ih => rw [memberTokens, ih, List.map_cons]

theorem writeItems_eq_map (depth : Nat) (items : List JsonValue) :
    writeItems depth items = items.map (write depth) := by
  induction items with
  | nil => rfl
  | cons item items ih => rw [writeItems, ih, List.map_cons]

theorem writeMembers_eq_map (depth : Nat) (members : List (List JsonChar × JsonValue)) :
    writeMembers depth members =
      members.map fun m => quote m.1 ++ [':', ' '] ++ write depth m.2 := by
  induction members with
  | nil => rfl
  | cons m members ih => rw [writeMembers, ih, List.map_cons]

/-! ## Text to tokens -/

theorem spells_member (name : String) {text : List Char} {ts : List JsonToken}
    (h : Spells text ts) :
    Spells (quote (chars name) ++ [':', ' '] ++ text) (.string (chars name) :: .colon :: ts) := by
  intro rest hr
  have hquote : JsonToken.scan (quote (chars name) ++ ':' :: ' ' :: (text ++ rest)) =
      (JsonToken.scan (':' :: ' ' :: (text ++ rest))).map (.string (chars name) :: ·) :=
    JsonToken.scan_of_next? rfl (JsonToken.next?_quote name _)
  rw [List.append_assoc, List.append_assoc, List.cons_append, List.singleton_append, hquote,
    JsonToken.scan_of_next? (t := .colon) rfl rfl, JsonToken.scan_of_blank rfl, h rest hr,
    Option.map_map, Option.map_map]
  rfl

theorem spells_write {v : JsonValue} (hv : Plain v) (depth : Nat) :
    Spells (write depth v) (tokens v) := by
  induction hv generalizing depth with
  | null => exact JsonToken.spells_of_next? rfl fun _ _ => rfl
  | bool b => cases b <;> exact JsonToken.spells_of_next? rfl fun _ _ => rfl
  | number n => exact JsonToken.spells_repr n
  | string s => exact JsonToken.spells_quote s
  | @array items _ ih =>
    rw [write, tokens, writeItems_eq_map, itemTokens_eq_map]
    exact JsonToken.spells_enclose depth rfl rfl (fun _ => rfl) (fun _ => rfl)
      fun v hv => ih v hv (depth + 1)
  | @object members _ ih =>
    rw [ofMembers, write, tokens, writeMembers_eq_map, memberTokens_eq_map, List.map_map,
      List.map_map]
    exact JsonToken.spells_enclose depth rfl rfl (fun _ => rfl) (fun _ => rfl)
      fun m hm => spells_member m.1 (ih m hm (depth + 1))

/-! ## Tokens to values -/

/-- Where the tokens stand, the value is read. -/
def Reads (ts : List JsonToken) (v : JsonValue) : Prop :=
  ∀ rest k, expectValue (ts ++ rest) k = continueWith v rest k

/-- No value starts with the end of an array. -/
theorem exists_tokens_eq_cons (v : JsonValue) :
    ∃ t ts, tokens v = t :: ts ∧ t ≠ .closeBracket := by
  cases v <;> exact ⟨_, _, rfl, by simp⟩

theorem expectValue_items {v : JsonValue} {items : List JsonValue}
    (h : ∀ w ∈ v :: items, Reads (tokens w) w) (acc : List JsonValue) (rest : List JsonToken)
    (k : List Frame) :
    expectValue (separated ((v :: items).map tokens) ++ .closeBracket :: rest)
        (.array acc :: k) =
      continueWith (.array (acc.reverse ++ v :: items)) rest k := by
  induction items generalizing v acc with
  | nil =>
    show expectValue (tokens v ++ .closeBracket :: rest) _ = _
    rw [h v List.mem_cons_self, continueWith, List.reverse_cons]
  | cons w items ih =>
    show expectValue (tokens v ++ .comma :: separated ((w :: items).map tokens) ++
      .closeBracket :: rest) _ = _
    rw [List.append_assoc, List.cons_append, h v List.mem_cons_self, continueWith,
      ih fun u hu => h u (List.mem_cons_of_mem v hu), List.reverse_cons, List.append_assoc,
      List.singleton_append]

theorem reads_array {items : List JsonValue} (h : ∀ v ∈ items, Reads (tokens v) v) :
    Reads (tokens (.array items)) (.array items) := by
  intro rest k
  rw [tokens, itemTokens_eq_map, List.append_assoc, List.cons_append, List.singleton_append]
  cases items with
  | nil => rfl
  | cons v items =>
    have hitems := expectValue_items h [] rest k
    obtain ⟨t, ts, ht, hne⟩ := exists_tokens_eq_cons v
    have hfirst : ∃ us, separated ((v :: items).map tokens) = t :: us := by
      cases items with
      | nil => exact ⟨ts, ht⟩
      | cons w items => exact ⟨_, congrArg (· ++ _) ht⟩
    obtain ⟨us, hus⟩ := hfirst
    rw [hus] at hitems ⊢
    rw [← List.reverse_nil, List.cons_append] at hitems
    rw [List.cons_append, expectValue]
    · exact hitems
    · rintro _ h
      exact hne (List.cons.inj h).1

theorem expectValue_members {m : List JsonChar × JsonValue}
    {members : List (List JsonChar × JsonValue)}
    (h : ∀ n ∈ m :: members, Reads (tokens n.2) n.2)
    (acc : List (List JsonChar × JsonValue)) (rest : List JsonToken) (k : List Frame) :
    ∃ ts, separated ((m :: members).map fun n => .string n.1 :: .colon :: tokens n.2) =
        .string m.1 :: .colon :: ts ∧
      expectValue (ts ++ .closeBrace :: rest) (.object acc m.1 :: k) =
        continueWith (.object (acc.reverse ++ m :: members)) rest k := by
  induction members generalizing m acc with
  | nil =>
    refine ⟨tokens m.2, rfl, ?_⟩
    rw [h m List.mem_cons_self, continueWith, List.reverse_cons]
  | cons n members ih =>
    obtain ⟨ts, hts, hrest⟩ :=
      ih (fun p hp => h p (List.mem_cons_of_mem m hp)) ((m.1, m.2) :: acc)
    refine ⟨tokens m.2 ++ .comma :: .string n.1 :: .colon :: ts, ?_, ?_⟩
    · show .string m.1 :: .colon :: tokens m.2 ++ .comma :: separated _ = _
      rw [hts]
      rfl
    · rw [List.append_assoc, List.cons_append, List.cons_append, List.cons_append,
        h m List.mem_cons_self, continueWith, hrest, List.reverse_cons, List.append_assoc,
        List.singleton_append]

theorem reads_object {members : List (List JsonChar × JsonValue)}
    (h : ∀ m ∈ members, Reads (tokens m.2) m.2) :
    Reads (tokens (.object members)) (.object members) := by
  intro rest k
  rw [tokens, memberTokens_eq_map, List.append_assoc, List.cons_append, List.singleton_append]
  cases members with
  | nil => rfl
  | cons m members =>
    obtain ⟨ts, hts, hmembers⟩ := expectValue_members h [] rest k
    rw [hts, List.cons_append, List.cons_append, expectValue]
    exact hmembers

theorem reads_tokens {v : JsonValue} (hv : Plain v) : Reads (tokens v) v := by
  induction hv with
  | null => exact fun _ _ => rfl
  | bool b => exact fun _ _ => rfl
  | number n => exact fun _ _ => rfl
  | string s => exact fun _ _ => rfl
  | array _ ih => exact reads_array ih
  | @object members _ ih =>
    refine reads_object fun m hm => ?_
    obtain ⟨n, hn, rfl⟩ := List.mem_map.mp hm
    exact ih n hn

/-- Plain values read back from their text. -/
theorem parse?_pretty {v : JsonValue} (hv : Plain v) : parse? (pretty v) = some v := by
  have hscan := spells_write hv 0 [] JsonToken.ends_nil
  rw [List.append_nil, JsonToken.scan_nil, Option.map_some, List.append_nil] at hscan
  have hread := reads_tokens hv [] []
  rw [List.append_nil] at hread
  rw [parse?, pretty, String.toList_ofList, hscan, Option.bind_some, ofTokens?, hread]
  rfl

end JsonValue
end Lineage
