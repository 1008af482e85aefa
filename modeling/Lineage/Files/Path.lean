/-!
Paths.

A path is kept as the parts that its slashes separate, so that its text is the
one that was given.  Empty parts and parts that are a single dot lead nowhere
new, but a dot in front belongs to the text of a path and of its parents.
-/

namespace Lineage

structure Path where
  parts : List String
  deriving DecidableEq, Repr

namespace Path

/-- Cut a text at every slash. -/
def cut : List Char → List (List Char)
  | [] => [[]]
  | c :: cs =>
    match cut cs with
    | [] => [[c]]
    | part :: parts => if c = '/' then [] :: part :: parts else (c :: part) :: parts

def ofString (s : String) : Path := ⟨(cut s.toList).map String.ofList⟩

def render (p : Path) : String := "/".intercalate p.parts

/-- The path of an empty text, which leads nowhere at all. -/
def empty : Path := ⟨[""]⟩

/-- The path that leads from the top through some names. -/
def ofPlace : List String → Path
  | [] => ⟨["", ""]⟩
  | names => ⟨"" :: names⟩

def isIdle (part : String) : Bool := part == "" || part == "."

/-- Drop idle parts from the end, all but the first part of a path. -/
def trim : List String → List String
  | [] => []
  | part :: parts => part :: (parts.reverse.dropWhile isIdle).reverse

/-- The path without its last part. -/
def parent? (p : Path) : Option Path :=
  if p = empty then none
  else
    match trim (trim p.parts).dropLast with
    | [] => some empty
    | parts => some ⟨parts⟩

/-- Go on from a path.  A path that starts with a slash starts anew. -/
def join (p q : Path) : Path :=
  if q.parts.head? = some "" then q
  else if p.parts.getLast? = some "" then ⟨p.parts.dropLast ++ q.parts⟩
  else ⟨p.parts ++ q.parts⟩

theorem length_trim_le (parts : List String) : (trim parts).length ≤ parts.length := by
  cases parts with
  | nil => exact Nat.le_refl _
  | cons part parts =>
    simp only [trim, List.length_cons, List.length_reverse]
    have := (List.dropWhile_sublist isIdle (l := parts.reverse)).length_le
    rw [List.length_reverse] at this
    omega

/-- A parent is shorter, unless nothing is left of it. -/
theorem length_parent?_lt {p q : Path} (h : p.parent? = some q) (hq : q ≠ empty) :
    q.parts.length < p.parts.length := by
  unfold parent? at h
  split at h
  · cases h
  · split at h
    · exact (hq (Option.some.inj h).symm).elim
    · cases h
      rename_i hne
      have hpos : 0 < (trim (trim p.parts).dropLast).length := List.length_pos_iff.mpr hne
      have h₁ := length_trim_le (trim p.parts).dropLast
      have h₂ := length_trim_le p.parts
      rw [List.length_dropLast] at h₁
      simp only
      omega

end Path
end Lineage
