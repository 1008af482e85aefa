import Lineage.Proofs.Descriptor.Grammar

/-!
Laws of renaming.

Renaming keeps what a text is.  A method type starts with a bracket and a field type
does not, before and after, and a text that is neither is left alone.  So the renamed
text is read as the renaming of what the text itself is read as, errors included, and
renaming twice is renaming once by both.  How much room values take does not hang on the
names of their classes.
-/

namespace Lineage

namespace FieldType

/-- A text that opens with a bracket is no field type. -/
theorem parse_of_bracket {descriptor : String} (h : descriptor.toList.head? = some '(') :
    parse descriptor = .error (.ofTag '(') := by
  obtain ⟨cs, hcs⟩ := List.head?_eq_some_iff.mp h
  rw [parse, hcs, read_of_other (by decide) (by decide) rfl]
  rfl

theorem head?_render (t : FieldType) : ∃ c, t.render.toList.head? = some c ∧ c ≠ '(' := by
  obtain ⟨c, cs, ht, hc, _⟩ := t.exists_chars_eq_cons
  exact ⟨c, by rw [render, String.toList_ofList, ht, List.head?_cons], hc⟩

/-- Values of both types take the same room, and either both are references or neither
is. -/
structure SameShape (t u : FieldType) : Prop where
  slots : t.slots = u.slots
  isReference : t.isReference = u.isReference
  dimensions : t.dimensions = u.dimensions

theorem sameShape_rename (f : String → Option String) (t : FieldType) :
    (t.rename f).SameShape t := by
  refine ⟨by cases t <;> rfl, by cases t <;> rfl, ?_⟩
  induction t with
  | array component ih => exact congrArg (· + 1) ih
  | _ => rfl

end FieldType

namespace MethodType

/-- A text that opens with another character is no method type. -/
theorem parse_of_ne {descriptor : String} {c : Char} (h : descriptor.toList.head? = some c)
    (hc : c ≠ '(') : parse descriptor = .error (.expected '(') := by
  obtain ⟨cs, hcs⟩ := List.head?_eq_some_iff.mp h
  rw [parse, hcs, read_of_ne hc]
  rfl

theorem head?_render (m : MethodType) : m.render.toList.head? = some '(' := by
  rw [render, String.toList_ofList]
  rfl

/-- Calls of both types take the same room for each argument and for their results. -/
structure SameShape (m n : MethodType) : Prop where
  length : m.parameters.length = n.parameters.length
  slots : m.parameters.map FieldType.slots = n.parameters.map FieldType.slots
  parameterSlots : m.parameterSlots = n.parameterSlots
  stackShape : m.stackShape = n.stackShape

theorem sameShape_rename (f : String → Option String) (m : MethodType) :
    (m.rename f).SameShape m := by
  have htype : FieldType.slots ∘ FieldType.rename f = FieldType.slots :=
    funext fun t => (t.sameShape_rename f).slots
  have hslots : (m.rename f).parameters.map FieldType.slots =
      m.parameters.map FieldType.slots := by
    rw [rename, List.map_map, htype]
  have hparameters : (m.rename f).parameterSlots = m.parameterSlots := by
    have hsum (n : MethodType) :
        n.parameterSlots = (n.parameters.map FieldType.slots).foldr (· + ·) 0 := by
      rw [List.foldr_map]
      rfl
    rw [hsum, hsum, hslots]
  refine ⟨List.length_map _, hslots, hparameters, ?_⟩
  rw [stackShape, stackShape, hparameters, rename, Option.map_map, htype]

end MethodType

namespace Descriptor

variable {f : String → Option String} {descriptor : String}

/-- The answers fit, and so do the names that have none. -/
theorem fits_getD (h : ∀ n ∈ names descriptor, ∀ m ∈ f n, FitsDescriptor m) :
    ∀ n ∈ names descriptor, FitsDescriptor ((f n).getD n) := by
  intro n hn
  cases hf : f n with
  | none => exact fits_of_mem_names hn
  | some m => exact h n hn m hf

theorem names_render_field {t : FieldType} (h : ∀ n ∈ t.names, FitsDescriptor n) :
    names t.render = t.names := by
  obtain ⟨c, hhead, hc⟩ := t.head?_render
  rw [names, if_neg (by rw [hhead]; exact fun he => hc (Option.some.inj he)),
    FieldType.parse_render h]

theorem names_render_method {m : MethodType} (h : ∀ n ∈ m.names, FitsDescriptor n) :
    names m.render = m.names := by
  rw [names, if_pos m.head?_render, MethodType.parse_render h]

theorem parse_rename_field (h : ∀ n ∈ names descriptor, FitsDescriptor ((f n).getD n)) :
    FieldType.parse (rename f descriptor) = (FieldType.parse descriptor).map (·.rename f) := by
  obtain ⟨m, rfl, _, hm⟩ | ⟨t, rfl, hnames, ht⟩ | ⟨hnone, hkept⟩ := printed_or_kept descriptor
  · rw [rename_render_method f hm, FieldType.parse_of_bracket m.head?_render,
      FieldType.parse_of_bracket (m.rename f).head?_render]
    rfl
  · have hrenamed : ∀ n ∈ (t.rename f).names, FitsDescriptor n := by
      rw [t.names_rename f]
      exact List.forall_mem_map.mpr (hnames ▸ h)
    rw [rename_render_field f ht, FieldType.parse_render ht, FieldType.parse_render hrenamed]
    rfl
  · rw [hkept f]
    cases hp : FieldType.parse descriptor with
    | error e => rfl
    | ok t =>
      obtain ⟨rfl, ht⟩ := FieldType.render_of_parse hp
      rw [names_render_field ht] at hnone
      have hself : t.rename f = t := FieldType.rename_eq_self (hnone ▸ List.forall_mem_nil _)
      rw [Except.map, hself]

theorem parse_rename_method (h : ∀ n ∈ names descriptor, FitsDescriptor ((f n).getD n)) :
    MethodType.parse (rename f descriptor) = (MethodType.parse descriptor).map (·.rename f) := by
  obtain ⟨m, rfl, hnames, hm⟩ | ⟨t, rfl, _, ht⟩ | ⟨hnone, hkept⟩ := printed_or_kept descriptor
  · have hrenamed : ∀ n ∈ (m.rename f).names, FitsDescriptor n := by
      rw [m.names_rename f]
      exact List.forall_mem_map.mpr (hnames ▸ h)
    rw [rename_render_method f hm, MethodType.parse_render hm, MethodType.parse_render hrenamed]
    rfl
  · obtain ⟨c, hhead, hc⟩ := t.head?_render
    obtain ⟨c', hhead', hc'⟩ := (t.rename f).head?_render
    rw [rename_render_field f ht, MethodType.parse_of_ne hhead hc,
      MethodType.parse_of_ne hhead' hc']
    rfl
  · rw [hkept f]
    cases hp : MethodType.parse descriptor with
    | error e => rfl
    | ok m =>
      obtain ⟨rfl, hm⟩ := MethodType.render_of_parse hp
      rw [names_render_method hm] at hnone
      have hself : m.rename f = m := MethodType.rename_eq_self (hnone ▸ List.forall_mem_nil _)
      rw [Except.map, hself]

/-- Renaming nothing changes no text.  If the answers for the names that a text mentions
can stand in one, then renaming on by `g` is renaming once by both, and the renamed text
is read as a type of the same kind and shape, or refused for the same reason. -/
theorem rename_functorial (descriptor : String) :
    rename (fun _ => none) descriptor = descriptor ∧
      ∀ f : String → Option String, (∀ n ∈ names descriptor, ∀ m ∈ f n, FitsDescriptor m) →
        (∀ g, rename g (rename f descriptor) = rename (andThen f g) descriptor) ∧
        (FieldType.parse (rename f descriptor) =
            (FieldType.parse descriptor).map (·.rename f) ∧
          ∀ t, FieldType.parse descriptor = .ok t →
            ∃ u, FieldType.parse (rename f descriptor) = .ok u ∧ u.SameShape t) ∧
        MethodType.parse (rename f descriptor) =
            (MethodType.parse descriptor).map (·.rename f) ∧
          ∀ m, MethodType.parse descriptor = .ok m →
            ∃ n, MethodType.parse (rename f descriptor) = .ok n ∧ n.SameShape m := by
  refine ⟨rename_eq_self fun _ _ => rfl, fun f h => ?_⟩
  have hfits := fits_getD h
  have hfield := parse_rename_field hfits
  have hmethod := parse_rename_method hfits
  refine ⟨rename_rename hfits, ⟨hfield, fun t ht => ?_⟩, hmethod, fun m hm => ?_⟩
  · exact ⟨t.rename f, by rw [hfield, ht]; rfl, t.sameShape_rename f⟩
  · exact ⟨m.rename f, by rw [hmethod, hm]; rfl, m.sameShape_rename f⟩

namespace Sample

def shorter (name : String) : Option String :=
  if name = "net/Ünit" then some "a" else if name = "net/Store" then some "b" else none

def longer (name : String) : Option String := if name = "a" then some "內;" else none

def ship : MethodType :=
  { parameters := [.long, .array (.array (.object "net/Ünit")), .object "c"]
    result := some (.object "net/Store") }

/-- The table that comes second may bring in what no descriptor can hold. -/
theorem rename_functorial_ship :
    MethodType.parse "(J[[Lnet/Ünit;Lc;)Lnet/Store;" = .ok ship ∧
      (∀ n ∈ names "(J[[Lnet/Ünit;Lc;)Lnet/Store;", ∀ m ∈ shorter n, FitsDescriptor m) ∧
      rename longer (rename shorter "(J[[Lnet/Ünit;Lc;)Lnet/Store;") = "(J[[L內;;Lc;)Lb;" ∧
      ∃ n, MethodType.parse "(J[[La;Lc;)Lb;" = .ok n ∧ n.stackShape = ⟨5, 1⟩ := by
  have hfits : ∀ n ∈ ship.names, FitsDescriptor n := by decide
  have hship : MethodType.parse ship.render = .ok ship := MethodType.parse_render hfits
  have hshorter : ∀ n ∈ names ship.render, ∀ m ∈ shorter n, FitsDescriptor m := by
    rw [names_render_method hfits]
    decide
  obtain ⟨hcompose, _, _, hshape⟩ := (rename_functorial ship.render).2 shorter hshorter
  have hlonger : rename longer (rename shorter ship.render) = "(J[[L內;;Lc;)Lb;" := by
    rw [hcompose, rename_render_method _ hfits]
    rfl
  obtain ⟨n, hn, hsame⟩ := hshape ship hship
  rw [rename_render_method _ hfits] at hn
  exact ⟨hship, hshorter, hlonger, n, hn, hsame.stackShape⟩

end Sample
end Descriptor
end Lineage
