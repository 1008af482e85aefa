import Lineage.Proofs.Descriptor.Bytewise

/-!
The grammar of descriptors.

A field type is a letter, a class name between `L` and a semicolon, or a bracket and a
field type; a method type is a bracketed list of field types and a result, `V` if there
is none.  Parsing accepts what the grammar derives and nothing else, and is inverse to
printing.
-/

namespace Lineage

/-- A parser that is inverse to printing accepts what a grammar derives, if the grammar
derives what is printed. -/
theorem exists_ok_iff_of_inverse {α : Type} {parse : String → Except DescriptorError α}
    {chars : α → List Char} {Fits : α → Prop} {Derives : List Char → Prop}
    (hparse : ∀ a, Fits a → parse (String.ofList (chars a)) = .ok a)
    (hprint : ∀ text a, parse text = .ok a → String.ofList (chars a) = text ∧ Fits a)
    (hderives : ∀ cs, Derives cs ↔ ∃ a, chars a = cs ∧ Fits a) (text : String) :
    (∃ a, parse text = .ok a) ↔ Derives text.toList := by
  rw [hderives]
  constructor
  · rintro ⟨a, ha⟩
    obtain ⟨rfl, hfits⟩ := hprint text a ha
    exact ⟨a, String.toList_ofList.symm, hfits⟩
  · rintro ⟨a, hchars, hfits⟩
    have htext : String.ofList (chars a) = text := by rw [hchars, String.ofList_toList]
    exact ⟨a, htext ▸ hparse a hfits⟩

namespace FieldType

def letters : List Char := ['B', 'C', 'D', 'F', 'I', 'J', 'S', 'Z']

/-- `T ::= B | C | D | F | I | J | S | Z | L name ; | [ T` -/
inductive Derives : List Char → Prop where
  | letter {c : Char} (h : c ∈ letters) : Derives [c]
  | named {name : List Char} (h : ';' ∉ name) : Derives ('L' :: name ++ [';'])
  | array {cs : List Char} (h : Derives cs) : Derives ('[' :: cs)

theorem derives_chars {t : FieldType} (h : ∀ n ∈ t.names, FitsDescriptor n) :
    Derives t.chars := by
  induction t with
  | object name => exact .named (h name List.mem_cons_self)
  | array component ih => exact .array (ih h)
  | _ => exact .letter (by decide)

/-- What is derived is a type printed. -/
theorem Derives.exists_chars_eq {cs : List Char} (h : Derives cs) :
    ∃ t : FieldType, t.chars = cs ∧ ∀ n ∈ t.names, FitsDescriptor n := by
  induction h with
  | letter h =>
    have hletters : ∀ c ∈ letters, ∃ t, ofLetter? c = some t := by
      simp only [letters, List.forall_mem_cons, ofLetter?, Option.some.injEq, exists_eq',
        List.not_mem_nil, false_implies, implies_true, and_self]
    obtain ⟨t, ht⟩ := hletters _ h
    obtain ⟨hchars, hnames⟩ := chars_of_ofLetter? ht
    exact ⟨t, hchars, hnames ▸ List.forall_mem_nil _⟩
  | @named name h =>
    refine ⟨.object (String.ofList name), ?_, ?_⟩
    · rw [chars, String.toList_ofList]
    · intro n hn
      cases List.mem_singleton.mp hn
      rwa [FitsDescriptor, String.toList_ofList]
  | array _ ih =>
    obtain ⟨t, rfl, ht⟩ := ih
    exact ⟨.array t, rfl, ht⟩

theorem derives_iff (cs : List Char) :
    Derives cs ↔ ∃ t : FieldType, t.chars = cs ∧ ∀ n ∈ t.names, FitsDescriptor n := by
  refine ⟨Derives.exists_chars_eq, ?_⟩
  rintro ⟨t, rfl, hnames⟩
  exact derives_chars hnames

theorem exists_parse_iff (text : String) :
    (∃ t, parse text = .ok t) ↔ Derives text.toList :=
  exists_ok_iff_of_inverse (fun _ => parse_render) (fun _ _ => render_of_parse) derives_iff text

theorem rename_none (t : FieldType) : (t.rename fun _ => none) = t :=
  rename_eq_self fun _ _ => rfl

/-- A canonical type is a field type that prints as it does, and is read back from
that if its names allow it. -/
theorem exists_parse_eq_of_canonical {t : CountedType} (h : t.Canonical)
    (hnames : ∀ n ∈ t.names, FitsDescriptor n) :
    ∃ u : FieldType, u.counted = t ∧ (∀ f, (u.rename f).chars = t.write f) ∧
      parse (u.rename fun _ => none).render = .ok u := by
  have hcounted := CountedType.counted_nested h
  refine ⟨t.nested, hcounted, fun f => by rw [← write_counted, hcounted], ?_⟩
  rw [rename_none]
  exact parse_render fun n hn => hnames n (by rwa [← hcounted, names_counted])

end FieldType

namespace MethodType

/-- `( T* )` and then `V` or `T`. -/
inductive Derives : List Char → Prop where
  | method {parameters : List (List Char)} {result : List Char}
      (hparameters : ∀ p ∈ parameters, FieldType.Derives p)
      (hresult : result = ['V'] ∨ FieldType.Derives result) :
      Derives ('(' :: parameters.flatten ++ ')' :: result)

theorem derives_chars {m : MethodType} (h : ∀ n ∈ m.names, FitsDescriptor n) :
    Derives m.chars := by
  obtain ⟨parameters, result⟩ := m
  rw [chars, List.flatMap_def]
  refine .method (List.forall_mem_map.mpr fun t ht => ?_) ?_
  · exact FieldType.derives_chars fun n hn => h n (mem_names_of_parameter ht hn)
  · cases result with
    | none => exact .inl rfl
    | some t => exact .inr (FieldType.derives_chars fun n hn => h n (mem_names_of_result rfl hn))

theorem exists_flatMap_chars_eq {parameters : List (List Char)}
    (h : ∀ p ∈ parameters, FieldType.Derives p) :
    ∃ ts : List FieldType, ts.flatMap FieldType.chars = parameters.flatten ∧
      ∀ t ∈ ts, ∀ n ∈ t.names, FitsDescriptor n := by
  induction parameters with
  | nil => exact ⟨[], rfl, List.forall_mem_nil _⟩
  | cons p parameters ih =>
    obtain ⟨t, hchars, ht⟩ := (h p List.mem_cons_self).exists_chars_eq
    obtain ⟨ts, hflatten, hts⟩ := ih fun q hq => h q (List.mem_cons_of_mem p hq)
    refine ⟨t :: ts, ?_, List.forall_mem_cons.mpr ⟨ht, hts⟩⟩
    rw [List.flatMap_cons, hchars, hflatten, List.flatten_cons]

theorem Derives.exists_chars_eq {cs : List Char} (h : Derives cs) :
    ∃ m : MethodType, m.chars = cs ∧ ∀ n ∈ m.names, FitsDescriptor n := by
  obtain @⟨parameters, result, hparameters, hresult⟩ := h
  obtain ⟨ts, hflatten, hts⟩ := exists_flatMap_chars_eq hparameters
  have hmethod (r : Option FieldType) (hr : (r.map FieldType.chars).getD ['V'] = result)
      (hfits : ∀ t ∈ r, ∀ n ∈ t.names, FitsDescriptor n) :
      ∃ m : MethodType, m.chars = '(' :: parameters.flatten ++ ')' :: result ∧
        ∀ n ∈ m.names, FitsDescriptor n := by
    refine ⟨⟨ts, r⟩, by rw [chars, hflatten, hr], fun n hn => ?_⟩
    obtain hn | hn := List.mem_append.mp hn
    · obtain ⟨t, ht, hn⟩ := List.mem_flatMap.mp hn
      exact hts t ht n hn
    · cases r with
      | none => cases hn
      | some t => exact hfits t rfl n hn
  obtain rfl | hresult := hresult
  · refine hmethod none rfl fun t ht => ?_
    cases ht
  · obtain ⟨t, rfl, ht⟩ := hresult.exists_chars_eq
    exact hmethod (some t) rfl fun u hu => Option.mem_some_iff.mp hu ▸ ht

theorem derives_iff (cs : List Char) :
    Derives cs ↔ ∃ m : MethodType, m.chars = cs ∧ ∀ n ∈ m.names, FitsDescriptor n := by
  refine ⟨Derives.exists_chars_eq, ?_⟩
  rintro ⟨m, rfl, hnames⟩
  exact derives_chars hnames

theorem exists_parse_iff (text : String) :
    (∃ m, parse text = .ok m) ↔ Derives text.toList :=
  exists_ok_iff_of_inverse (fun _ => parse_render) (fun _ _ => render_of_parse) derives_iff text

theorem rename_none (m : MethodType) : (m.rename fun _ => none) = m :=
  rename_eq_self fun _ _ => rfl

theorem exists_parse_eq_of_canonical {m : CountedMethod} (h : m.Canonical)
    (hnames : ∀ n ∈ m.names, FitsDescriptor n) :
    ∃ u : MethodType, u.counted = m ∧ (∀ f, (u.rename f).chars = m.write f) ∧
      parse (u.rename fun _ => none).render = .ok u := by
  have hcounted := CountedMethod.counted_nested h
  refine ⟨m.nested, hcounted, fun f => by rw [← write_counted, hcounted], ?_⟩
  rw [rename_none]
  exact parse_render fun n hn => hnames n (by rwa [← hcounted, names_counted])

end MethodType

namespace Descriptor

/-- Parsing accepts exactly what the grammar derives and is inverse to printing on
canonical types whose class names hold no semicolon.  Over the bytes of the text it
comes to the same, without a cut off the characters. -/
theorem parse_exact :
    ((∀ text, (∃ t, FieldType.parse text = .ok t) ↔ FieldType.Derives text.toList) ∧
      (∀ text t, FieldType.parse text = .ok t →
        t.counted.Canonical ∧ (t.rename fun _ => none).render = text) ∧
      (∀ t : CountedType, t.Canonical → (∀ n ∈ t.names, FitsDescriptor n) →
        ∃ u : FieldType, u.counted = t ∧ (∀ f, (u.rename f).chars = t.write f) ∧
          FieldType.parse (u.rename fun _ => none).render = .ok u) ∧
      ∀ text, Bytewise.parseType text = some ((FieldType.parse text).map FieldType.counted)) ∧
    (∀ text, (∃ m, MethodType.parse text = .ok m) ↔ MethodType.Derives text.toList) ∧
    (∀ text m, MethodType.parse text = .ok m →
      m.counted.Canonical ∧ (m.rename fun _ => none).render = text) ∧
    (∀ m : CountedMethod, m.Canonical → (∀ n ∈ m.names, FitsDescriptor n) →
      ∃ u : MethodType, u.counted = m ∧ (∀ f, (u.rename f).chars = m.write f) ∧
        MethodType.parse (u.rename fun _ => none).render = .ok u) ∧
    ∀ text, Bytewise.parseMethod text = some ((MethodType.parse text).map MethodType.counted) := by
  refine ⟨⟨FieldType.exists_parse_iff, fun text t h => ⟨t.canonical_counted, ?_⟩,
      fun t => FieldType.exists_parse_eq_of_canonical, Bytewise.parseType_eq⟩,
    MethodType.exists_parse_iff, fun text m h => ⟨m.canonical_counted, ?_⟩,
      fun m => MethodType.exists_parse_eq_of_canonical, Bytewise.parseMethod_eq⟩
  · rw [t.rename_none]
    exact (FieldType.render_of_parse h).1
  · rw [m.rename_none]
    exact (MethodType.render_of_parse h).1

namespace Sample

/-- An array of a class whose name takes more bytes than it has characters. -/
def cast : CountedType := .array (.object "p/Ünïcode$內") 2

theorem parse_exact_cast :
    FieldType.parse "[[Lp/Ünïcode$內;" = .ok (.array (.array (.object "p/Ünïcode$內"))) ∧
      FieldType.Derives "[[Lp/Ünïcode$內;".toList ∧
      Bytewise.parseType "[[Lp/Ünïcode$內;" = some (.ok cast) ∧
      (∃ u : FieldType, u.counted = cast ∧
        FieldType.parse (u.rename fun _ => none).render = .ok u) ∧
      MethodType.parse "(J[I)V" = .ok ⟨[.long, .array .int], none⟩ ∧
      MethodType.Derives "(J[I)V".toList := by
  obtain ⟨⟨haccepts, hprints, hparses, hcuts⟩, haccepts', _⟩ := parse_exact
  have htype : FieldType.parse "[[Lp/Ünïcode$內;" =
      .ok (.array (.array (.object "p/Ünïcode$內"))) := rfl
  have hmethod : MethodType.parse "(J[I)V" = .ok ⟨[.long, .array .int], none⟩ :=
    MethodType.parse_render (m := ⟨[.long, .array .int], none⟩) (by decide)
  have hcanonical : cast.Canonical := (hprints _ _ htype).1
  obtain ⟨u, hu, _, hparse⟩ := hparses cast hcanonical (by decide)
  exact ⟨htype, (haccepts _).mp ⟨_, htype⟩, (hcuts _).trans (by rw [htype]; rfl),
    ⟨u, hu, hparse⟩, hmethod, (haccepts' _).mp ⟨_, hmethod⟩⟩

end Sample
end Descriptor
end Lineage
