import Lineage.Descriptor.Renaming

/-!
Descriptors that are printed read back, and those that are read were printed.

A class name ends at the first semicolon, so a type is read back from its
characters exactly when no class name in it holds one.  Names that come from a
reader never do; names that a renaming brings in must not.  Renaming a descriptor
given as text twice is then renaming it once by both, and only the names that the
descriptor mentions matter to it.
-/

namespace Lineage

/-- No semicolon, so that a descriptor can hold it as a class name. -/
def FitsDescriptor (name : String) : Prop := ';' ∉ name.toList

instance (name : String) : Decidable (FitsDescriptor name) :=
  inferInstanceAs (Decidable (';' ∉ name.toList))

/-- Rename by `f` and then by `g`.  What has no answer goes on as it is. -/
def Descriptor.andThen (f g : String → Option String) (name : String) : Option String :=
  (g ((f name).getD name)).or (f name)

namespace FieldType

/-- The class name in a type, if there is one. -/
def names : FieldType → List String
  | object name => [name]
  | array component => component.names
  | _ => []

/-! ## One type -/

theorem read_object {name : String} (h : FitsDescriptor name) (rest : List Char) :
    read ('L' :: name.toList ++ ';' :: rest) = .ok (object name, rest) := by
  have hall : ∀ c ∈ name.toList, (c != ';') = true :=
    fun c hc => bne_iff_ne.mpr fun he => h (he ▸ hc)
  have hdrop : (name.toList ++ ';' :: rest).dropWhile (· != ';') = ';' :: rest := by
    rw [List.dropWhile_append_of_pos hall]
    rfl
  have htake : (name.toList ++ ';' :: rest).takeWhile (· != ';') = name.toList := by
    rw [List.takeWhile_append_of_pos hall]
    exact List.append_nil _
  rw [List.cons_append, read, hdrop, htake, String.ofList_toList]

theorem read_chars {t : FieldType} (h : ∀ n ∈ t.names, FitsDescriptor n) (rest : List Char) :
    read (t.chars ++ rest) = .ok (t, rest) := by
  induction t with
  | object name =>
    have hname : FitsDescriptor name := h name List.mem_cons_self
    rw [chars, List.append_assoc]
    exact read_object hname rest
  | array component ih =>
    rw [chars, List.cons_append, read, ih h]
    rfl
  | _ => rfl

theorem chars_of_ofLetter? {c : Char} {t : FieldType} (h : ofLetter? c = some t) :
    t.chars = [c] ∧ t.names = [] := by
  unfold ofLetter? at h
  split at h <;> cases h <;> exact ⟨rfl, rfl⟩

theorem chars_of_read {cs rest : List Char} {t : FieldType} (h : read cs = .ok (t, rest)) :
    cs = t.chars ++ rest ∧ ∀ n ∈ t.names, FitsDescriptor n := by
  fun_induction read cs generalizing t rest with
  | case1 => cases h
  | case2 cs ih =>
    cases hr : read cs with
    | error e => rw [hr] at h; cases h
    | ok r =>
      rw [hr] at h
      cases h
      obtain ⟨hcs, hnames⟩ := ih hr
      exact ⟨congrArg ('[' :: ·) hcs, hnames⟩
  | case3 => cases h
  | case4 cs c rest' hd =>
    cases h
    have hsemicolon : c = ';' := by
      have hc := List.head?_dropWhile_not (· != ';') cs
      rw [hd, List.head?_cons] at hc
      simpa using hc
    have hcs : cs.takeWhile (· != ';') ++ c :: rest' = cs := by
      rw [← hd, List.takeWhile_append_dropWhile]
    refine ⟨?_, fun n hn => ?_⟩
    · subst hsemicolon
      rw [chars, String.toList_ofList, List.append_assoc, List.singleton_append, List.cons_append,
        hcs]
    · cases List.mem_singleton.mp hn
      rw [FitsDescriptor, String.toList_ofList]
      intro hmem
      simpa using List.all_eq_true.mp List.all_takeWhile ';' hmem
  | case5 c cs _ _ u hu =>
    cases h
    obtain ⟨hchars, hnone⟩ := chars_of_ofLetter? hu
    exact ⟨by rw [hchars]; rfl, by simp [hnone]⟩
  | case6 => cases h

theorem parse_render {t : FieldType} (h : ∀ n ∈ t.names, FitsDescriptor n) :
    parse t.render = .ok t := by
  have hread := read_chars h []
  rw [List.append_nil] at hread
  rw [parse, render, String.toList_ofList, hread]
  rfl

theorem render_of_parse {descriptor : String} {t : FieldType}
    (h : parse descriptor = .ok t) :
    t.render = descriptor ∧ ∀ n ∈ t.names, FitsDescriptor n := by
  unfold parse at h
  cases hr : read descriptor.toList with
  | error e => rw [hr] at h; cases h
  | ok r =>
    obtain ⟨u, rest⟩ := r
    rw [hr] at h
    cases rest with
    | cons c rest => cases h
    | nil =>
      cases h
      obtain ⟨hcs, hnames⟩ := chars_of_read hr
      rw [List.append_nil] at hcs
      exact ⟨by rw [render, ← hcs, String.ofList_toList], hnames⟩

/-- A type starts with its letter or a bracket, and neither closes a parameter
list nor stands for no result. -/
theorem exists_chars_eq_cons (t : FieldType) :
    ∃ c cs, t.chars = c :: cs ∧ c ≠ '(' ∧ c ≠ ')' ∧ c ≠ 'V' := by
  cases t <;> exact ⟨_, _, rfl, by decide, by decide, by decide⟩

/-! ## Renaming in one type -/

theorem names_rename (f : String → Option String) (t : FieldType) :
    (t.rename f).names = t.names.map fun n => (f n).getD n := by
  induction t with
  | array component ih => exact ih
  | _ => rfl

theorem rename_eq_self {f : String → Option String} {t : FieldType}
    (h : ∀ n ∈ t.names, (f n).getD n = n) : t.rename f = t := by
  induction t with
  | object name => exact congrArg object (h name List.mem_cons_self)
  | array component ih => exact congrArg array (ih h)
  | _ => rfl

theorem rename_rename (f g : String → Option String) (t : FieldType) :
    (t.rename f).rename g = t.rename (Descriptor.andThen f g) := by
  induction t with
  | object name => exact congrArg object Option.getD_or.symm
  | array component ih => exact congrArg array ih
  | _ => rfl

end FieldType

namespace MethodType

/-- The class names in a method type. -/
def names (m : MethodType) : List String :=
  m.parameters.flatMap FieldType.names ++ (m.result.map FieldType.names).getD []

theorem mem_names_of_parameter {m : MethodType} {t : FieldType} {n : String}
    (ht : t ∈ m.parameters) (hn : n ∈ t.names) : n ∈ m.names :=
  List.mem_append_left _ (List.mem_flatMap.mpr ⟨t, ht, hn⟩)

theorem mem_names_of_result {m : MethodType} {t : FieldType} {n : String}
    (ht : m.result = some t) (hn : n ∈ t.names) : n ∈ m.names := by
  refine List.mem_append_right _ ?_
  rw [ht]
  exact hn

/-! ## A method type -/

theorem readParameters_of_ne {c : Char} (hc : c ≠ ')') (cs : List Char) :
    readParameters (c :: cs) = (FieldType.read (c :: cs) >>= fun r =>
      (readParameters r.2).map fun s => (r.1 :: s.1, s.2)) := by
  rw [readParameters]
  · split
    · next h => rw [h]; rfl
    · next h => dsimp only; rw [h]; rfl
  · exact hc

theorem readResult_of_ne {c : Char} (hc : c ≠ 'V') (cs : List Char) :
    readResult (c :: cs) = (FieldType.read (c :: cs)).map fun r => (some r.1, r.2) := by
  rw [readResult]
  · intro h
    cases h
  · intro _ h
    exact hc (List.cons.inj h).1

theorem readParameters_chars (parameters : List FieldType)
    (h : ∀ t ∈ parameters, ∀ n ∈ t.names, FitsDescriptor n) (rest : List Char) :
    readParameters (parameters.flatMap FieldType.chars ++ ')' :: rest) =
      .ok (parameters, rest) := by
  induction parameters with
  | nil => rw [List.flatMap_nil, List.nil_append, readParameters]
  | cons t parameters ih =>
    obtain ⟨c, cs, ht, _, hc, _⟩ := t.exists_chars_eq_cons
    have hread := FieldType.read_chars (h t List.mem_cons_self)
      (parameters.flatMap FieldType.chars ++ ')' :: rest)
    have hrest := ih fun u hu => h u (List.mem_cons_of_mem t hu)
    rw [ht, List.cons_append] at hread
    rw [List.flatMap_cons, List.append_assoc, ht, List.cons_append, readParameters_of_ne hc, hread]
    show (readParameters _).map _ = _
    rw [hrest]
    rfl

theorem readResult_chars (result : Option FieldType)
    (h : ∀ t, result = some t → ∀ n ∈ t.names, FitsDescriptor n) (rest : List Char) :
    readResult ((result.map FieldType.chars).getD ['V'] ++ rest) = .ok (result, rest) := by
  cases result with
  | none => rfl
  | some t =>
    obtain ⟨c, cs, ht, _, _, hc⟩ := t.exists_chars_eq_cons
    have hread := FieldType.read_chars (h t rfl) rest
    rw [ht, List.cons_append] at hread
    rw [Option.map_some, Option.getD_some, ht, List.cons_append, readResult_of_ne hc, hread]
    rfl

theorem parse_render {m : MethodType} (h : ∀ n ∈ m.names, FitsDescriptor n) :
    parse m.render = .ok m := by
  have hparameters := readParameters_chars m.parameters
    (fun t ht n hn => h n (mem_names_of_parameter ht hn))
    ((m.result.map FieldType.chars).getD ['V'])
  have hresult := readResult_chars m.result
    (fun t ht n hn => h n (mem_names_of_result ht hn)) []
  rw [List.append_nil] at hresult
  have hread : read m.chars = .ok (m, []) := by
    rw [chars, List.cons_append, read, hparameters]
    show (readResult _ >>= _) = _
    rw [hresult]
    rfl
  rw [parse, render, String.toList_ofList, hread]
  rfl

theorem chars_of_readParameters {cs rest : List Char} {parameters : List FieldType}
    (h : readParameters cs = .ok (parameters, rest)) :
    cs = parameters.flatMap FieldType.chars ++ ')' :: rest ∧
      ∀ t ∈ parameters, ∀ n ∈ t.names, FitsDescriptor n := by
  fun_induction readParameters cs generalizing parameters rest with
  | case1 => cases h
  | case2 => cases h; exact ⟨rfl, by simp⟩
  | case3 => cases h
  | case4 c cs _ t rest' hr _ ih =>
    cases hp : readParameters rest' with
    | error e => rw [hp] at h; cases h
    | ok r =>
      rw [hp] at h
      cases h
      obtain ⟨hrest, hparameters⟩ := ih hp
      obtain ⟨hcs, ht⟩ := FieldType.chars_of_read hr
      refine ⟨by rw [hcs, hrest, List.flatMap_cons, List.append_assoc], ?_⟩
      rintro u (_ | ⟨_, hu⟩)
      · exact ht
      · exact hparameters u hu

theorem chars_of_readResult {cs rest : List Char} {result : Option FieldType}
    (h : readResult cs = .ok (result, rest)) :
    cs = (result.map FieldType.chars).getD ['V'] ++ rest ∧
      ∀ t, result = some t → ∀ n ∈ t.names, FitsDescriptor n := by
  unfold readResult at h
  split at h
  · cases h
  · cases h; exact ⟨rfl, by simp⟩
  · cases hr : FieldType.read cs with
    | error e => rw [hr] at h; cases h
    | ok r =>
      rw [hr] at h
      cases h
      obtain ⟨hcs, ht⟩ := FieldType.chars_of_read hr
      refine ⟨hcs, ?_⟩
      rintro _ ⟨⟩
      exact ht

theorem chars_of_read {cs rest : List Char} {m : MethodType} (h : read cs = .ok (m, rest)) :
    cs = m.chars ++ rest ∧ ∀ n ∈ m.names, FitsDescriptor n := by
  unfold read at h
  split at h
  · cases h
  · next cs =>
    cases hp : readParameters cs with
    | error e => rw [hp] at h; cases h
    | ok r =>
      obtain ⟨parameters, afterParameters⟩ := r
      cases hr : readResult afterParameters with
      | error e => simp [hp, bind, Except.bind, hr] at h
      | ok r =>
        obtain ⟨result, afterResult⟩ := r
        simp only [hp, bind, Except.bind, hr] at h
        cases h
        obtain ⟨hcs, hparameters⟩ := chars_of_readParameters hp
        obtain ⟨hafter, hresult⟩ := chars_of_readResult hr
        refine ⟨by rw [hcs, hafter, chars, List.append_assoc]; rfl, ?_⟩
        intro n hn
        rcases List.mem_append.mp hn with hn | hn
        · obtain ⟨t, ht, hn⟩ := List.mem_flatMap.mp hn
          exact hparameters t ht n hn
        · cases result with
          | none => cases hn
          | some t => exact hresult t rfl n hn
  · cases h

theorem render_of_parse {descriptor : String} {m : MethodType}
    (h : parse descriptor = .ok m) :
    m.render = descriptor ∧ ∀ n ∈ m.names, FitsDescriptor n := by
  unfold parse at h
  cases hr : read descriptor.toList with
  | error e => rw [hr] at h; cases h
  | ok r =>
    obtain ⟨u, rest⟩ := r
    rw [hr] at h
    cases rest with
    | cons c rest => cases h
    | nil =>
      cases h
      obtain ⟨hcs, hnames⟩ := chars_of_read hr
      rw [List.append_nil] at hcs
      exact ⟨by rw [render, ← hcs, String.ofList_toList], hnames⟩

/-! ## Renaming in a method type -/

theorem names_rename (f : String → Option String) (m : MethodType) :
    (m.rename f).names = m.names.map fun n => (f n).getD n := by
  obtain ⟨parameters, result⟩ := m
  have hparameters : (parameters.map (·.rename f)).flatMap FieldType.names =
      (parameters.flatMap FieldType.names).map fun n => (f n).getD n := by
    rw [List.flatMap_map, List.map_flatMap]
    exact congrArg (parameters.flatMap ·) (funext fun t => t.names_rename f)
  rw [names, names, List.map_append, rename, hparameters]
  cases result with
  | none => rfl
  | some t => exact congrArg (_ ++ ·) (t.names_rename f)

theorem rename_eq_self {f : String → Option String} {m : MethodType}
    (h : ∀ n ∈ m.names, (f n).getD n = n) : m.rename f = m := by
  obtain ⟨parameters, result⟩ := m
  have hparameters : parameters.map (·.rename f) = parameters := by
    refine (List.map_congr_left fun t ht => ?_).trans (List.map_id _)
    exact FieldType.rename_eq_self fun n hn => h n (mem_names_of_parameter ht hn)
  have hresult : result.map (·.rename f) = result := by
    cases result with
    | none => rfl
    | some t =>
      exact congrArg some (FieldType.rename_eq_self fun n hn => h n (mem_names_of_result rfl hn))
  rw [rename, hparameters, hresult]

theorem rename_rename (f g : String → Option String) (m : MethodType) :
    (m.rename f).rename g = m.rename (Descriptor.andThen f g) := by
  have htype : FieldType.rename g ∘ FieldType.rename f =
      FieldType.rename (Descriptor.andThen f g) := funext (FieldType.rename_rename f g)
  simp only [rename, List.map_map, Option.map_map, htype]

end MethodType

namespace Descriptor

/-- The class names that a descriptor mentions, by the rules that `rename` goes
by.  One that cannot be read mentions none. -/
def names (descriptor : String) : List String :=
  if descriptor.toList.head? = some '(' then
    match MethodType.parse descriptor with
    | .ok m => m.names
    | .error _ => []
  else
    match FieldType.parse descriptor with
    | .ok t => t.names
    | .error _ => []

/-! ## A descriptor given as text -/

theorem rename_render_method {m : MethodType} (f : String → Option String)
    (h : ∀ n ∈ m.names, FitsDescriptor n) : rename f m.render = (m.rename f).render := by
  have hhead : m.render.toList.head? = some '(' := by
    rw [MethodType.render, String.toList_ofList]
    rfl
  rw [rename, if_pos hhead, MethodType.parse_render h]

theorem rename_render_field {t : FieldType} (f : String → Option String)
    (h : ∀ n ∈ t.names, FitsDescriptor n) : rename f t.render = (t.rename f).render := by
  have hhead : t.render.toList.head? ≠ some '(' := by
    obtain ⟨c, cs, ht, hc, _⟩ := t.exists_chars_eq_cons
    rw [FieldType.render, String.toList_ofList, ht]
    exact fun he => hc (Option.some.inj he)
  rw [rename, if_neg hhead, FieldType.parse_render h]

/-- Whatever the text, it is a method type printed, a type printed, or left as
it is by every renaming. -/
theorem printed_or_kept (descriptor : String) :
    (∃ m : MethodType, m.render = descriptor ∧ names descriptor = m.names ∧
        ∀ n ∈ m.names, FitsDescriptor n) ∨
      (∃ t : FieldType, t.render = descriptor ∧ names descriptor = t.names ∧
        ∀ n ∈ t.names, FitsDescriptor n) ∨
      names descriptor = [] ∧ ∀ f, rename f descriptor = descriptor := by
  by_cases hhead : descriptor.toList.head? = some '('
  · simp only [names, rename, if_pos hhead]
    cases hp : MethodType.parse descriptor with
    | error e => exact .inr (.inr ⟨rfl, fun _ => rfl⟩)
    | ok m =>
      obtain ⟨hrender, hnames⟩ := MethodType.render_of_parse hp
      exact .inl ⟨m, hrender, rfl, hnames⟩
  · simp only [names, rename, if_neg hhead]
    cases hp : FieldType.parse descriptor with
    | error e => exact .inr (.inr ⟨rfl, fun _ => rfl⟩)
    | ok t =>
      obtain ⟨hrender, hnames⟩ := FieldType.render_of_parse hp
      exact .inr (.inl ⟨t, hrender, rfl, hnames⟩)

theorem rename_eq_self {f : String → Option String} {descriptor : String}
    (h : ∀ n ∈ names descriptor, (f n).getD n = n) : rename f descriptor = descriptor := by
  obtain ⟨m, rfl, hnames, hm⟩ | ⟨t, rfl, hnames, ht⟩ | ⟨_, hkept⟩ := printed_or_kept descriptor
  · rw [rename_render_method f hm, MethodType.rename_eq_self (hnames ▸ h)]
  · rw [rename_render_field f ht, FieldType.rename_eq_self (hnames ▸ h)]
  · exact hkept f

theorem rename_rename {f : String → Option String} {descriptor : String}
    (hfits : ∀ n ∈ names descriptor, FitsDescriptor ((f n).getD n))
    (g : String → Option String) :
    rename g (rename f descriptor) = rename (andThen f g) descriptor := by
  obtain ⟨m, rfl, hnames, hm⟩ | ⟨t, rfl, hnames, ht⟩ | ⟨_, hkept⟩ := printed_or_kept descriptor
  · rw [hnames] at hfits
    have hrenamed : ∀ n ∈ (m.rename f).names, FitsDescriptor n := by
      rw [m.names_rename f]
      exact List.forall_mem_map.mpr hfits
    rw [rename_render_method f hm, rename_render_method g hrenamed, m.rename_rename,
      rename_render_method _ hm]
  · rw [hnames] at hfits
    have hrenamed : ∀ n ∈ (t.rename f).names, FitsDescriptor n := by
      rw [t.names_rename f]
      exact List.forall_mem_map.mpr hfits
    rw [rename_render_field f ht, rename_render_field g hrenamed, t.rename_rename,
      rename_render_field _ ht]
  · rw [hkept f, hkept g, hkept (andThen f g)]

/-- A descriptor only mentions names that fit into one. -/
theorem fits_of_mem_names {descriptor n : String} (h : n ∈ names descriptor) :
    FitsDescriptor n := by
  obtain ⟨m, _, hnames, hm⟩ | ⟨t, _, hnames, ht⟩ | ⟨hnone, _⟩ := printed_or_kept descriptor
  · exact hm n (hnames ▸ h)
  · exact ht n (hnames ▸ h)
  · rw [hnone] at h
    cases h

end Descriptor
end Lineage
