import Lineage.Hierarchy.Viewpoint
import Lineage.Resolution.Finding

/-!
Bouncers.  A bouncer is linked to the method it forwards to; later it is pointed
at the class that really declares that method, and the root that the chain of
bouncers lands on is looked up.
-/

namespace Lineage
namespace Resolution

/-- The bouncers of a class with their targets, in the order of their keys. -/
def bouncesOf (h : Hierarchy) (cls : String) : List (MemberRef × MemberRef) :=
  ((h.class? cls).map fun c => c.methods.values.filterMap fun m =>
    m.bounce.map fun b => (m.ref, b.target)).getD []

/-- Make the bouncers of a class known to their targets. -/
def linkBouncers (h : Hierarchy) (cls : String) : Hierarchy :=
  (bouncesOf h cls).foldl (fun h b => h.modifyMethod b.2 (·.addForwarder b.1)) h

/-! ## Walking up -/

structure Walk where
  hierarchy : Hierarchy
  findings : List Finding
  /-- The viewpoints that have been walked from. -/
  seen : List Viewpoint

namespace Walk

def report (f : Finding) : StateM Walk Unit :=
  modify fun w => { w with findings := w.findings ++ [f] }

def land (bouncer root : MemberRef) : StateM Walk Unit :=
  modify fun w => { w with hierarchy := w.hierarchy.modifyMethod bouncer (·.land root) }

/-- Note a viewpoint, and answer whether it is new. -/
def enter (v : Viewpoint) : StateM Walk Bool := do
  if v ∈ (← get).seen then return false
  modify fun w => { w with seen := v :: w.seen }
  return true

/-- The first answer that a step gives. -/
def firstSome {α β : Type} (step : α → StateM Walk (Option β)) : List α → StateM Walk (Option β)
  | [] => return none
  | a :: as => do
    match ← step a with
    | some b => return some b
    | none => firstSome step as

/-- The root to choose for `bouncer` where the walk has come to a declaration
that is no bouncer: the least root of the declaration, or itself if it has
none. -/
def settle (bouncer : MemberRef) (declared : MethodNode) (cls : String) :
    StateM Walk MemberRef := do
  match ((← get).hierarchy.overrideRoots declared.ref cls).toList with
  | [] => return declared.ref
  | [root] => return root
  | root :: more => do
    report (.ambiguousBounce bouncer (root :: more) root)
    return root

/-- Go on from a bouncer that forwards to `declared`.  A root that has been
found for it counts; otherwise it is walked, and must lead out of the class. -/
def through (walk : MemberRef → String → StateM Walk (Option MemberRef))
    (declared : MemberRef) (cls : String) (via : MemberRef) : StateM Walk (Option MemberRef) := do
  match (← get).hierarchy.method? via with
  | none => return none
  | some forwarder =>
    match forwarder.bounce with
    | none => return none
    | some bounce =>
      match bounce.landing with
      | some root => return some root
      | none =>
        match (← walk forwarder.ref cls).filter fun root => root.owner != cls with
        | some root => do
          land via root
          return some root
        | none => do
          report (.unwalkableBounce declared via)
          return none

/-- The root for `method` seen from `cls`.  A declaration that is no bouncer
ends the walk, one that is a bouncer leads on to the bouncers into it, and after
them come the supertypes.  No viewpoint is walked from twice, so `fuel` has only
to exceed the number of viewpoints. -/
def walk : (fuel : Nat) → (method : MemberRef) → (cls : String) →
    StateM Walk (Option MemberRef)
  | 0, _, _ => return none
  | fuel + 1, method, cls => do
    if !(← enter ⟨method, cls⟩) then return none
    match (← get).hierarchy.class? cls with
    | none => return none
    | some c =>
      let declared := (c.method? method.key).filter fun d =>
        d.isInheritable || cls == method.owner
      let found ← match declared with
        | none => pure none
        | some d =>
          if d.isBouncer then firstSome (through (walk fuel) d.ref cls) d.forwarders.toList
          else some <$> settle method d cls
      match found with
      | some root => return some root
      | none => firstSome (walk fuel method) c.supertypes

end Walk

/-! ## Resolving the bouncers of a class -/

/-- How many viewpoints can be walked from. -/
def viewpointCount (h : Hierarchy) : Nat :=
  h.classes.values.foldr (fun c total => c.methods.size + total) 0 * h.classes.size

/-- Point a bouncer at the class that declares its target.  One that forwards
within its own class is right as it is. -/
def retarget (cls : String) (h : Hierarchy) (bouncer target : MemberRef) : Hierarchy :=
  if target.owner = cls then h
  else
    match h.declaration? target with
    | some declared => h.modifyMethod bouncer (·.retarget declared)
    | none => h

/-- Find where a bouncer lands.  A root in its own class is not noted. -/
def landBouncer (cls : String) (bouncer : MemberRef) (h : Hierarchy) :
    Hierarchy × List Finding :=
  let (root, w) := (Walk.walk (viewpointCount h + 1) bouncer cls).run
    { hierarchy := h, findings := [], seen := [] }
  match root with
  | some root =>
    if root.owner = cls then (w.hierarchy, w.findings)
    else (w.hierarchy.modifyMethod bouncer (·.land root), w.findings)
  | none => (w.hierarchy, w.findings)

def resolveBouncer (cls : String) (state : Hierarchy × List Finding)
    (bounce : MemberRef × MemberRef) : Hierarchy × List Finding :=
  let (h, findings) := landBouncer cls bounce.1 (retarget cls state.1 bounce.1 bounce.2)
  (h, state.2 ++ findings)

def resolveBounces (cls : String) (h : Hierarchy) : Hierarchy × List Finding :=
  (bouncesOf h cls).foldl (resolveBouncer cls) (h, [])

end Resolution
end Lineage
