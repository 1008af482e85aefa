import Lineage.MemberRef

/-! What resolution notices about a hierarchy without being stopped by it. -/

namespace Lineage

inductive Finding where
  /-- The class was asked for and could not be had. -/
  | missingClass (cls : String)
  /-- Nothing in the ancestry of the class implements the abstract method. -/
  | unresolvedContract (cls : String) (contract : MemberRef)
  /-- The bouncer could belong to several roots. -/
  | ambiguousBounce (bouncer : MemberRef) (candidates : List MemberRef) (chosen : MemberRef)
  /-- A component should have one getter. -/
  | crowdedComponent (cls field : String) (accessors : List String)
  | cyclicHierarchy (cls : String)
  /-- No root was found beyond the bouncer `via`, which forwards to `bouncer`. -/
  | unwalkableBounce (bouncer via : MemberRef)
  deriving DecidableEq, Repr

namespace Finding

def cls : Finding → String
  | missingClass c => c
  | unresolvedContract c _ => c
  | ambiguousBounce bouncer _ _ => bouncer.owner
  | crowdedComponent c _ _ => c
  | cyclicHierarchy c => c
  | unwalkableBounce bouncer _ => bouncer.owner

def message : Finding → String
  | missingClass c => "failed to find class " ++ c
  | unresolvedContract c contract => "unresolved abstract " ++ contract.render ++ " for " ++ c
  | ambiguousBounce bouncer candidates chosen =>
    "bouncer " ++ bouncer.render ++ " has " ++ toString candidates.length ++
      " candidate owners, chose " ++ chosen.render
  | crowdedComponent c field accessors =>
    "record component " ++ c ++ "." ++ field ++ " has " ++ toString accessors.length ++
      " accessors: " ++ ", ".intercalate accessors
  | cyclicHierarchy c => "class " ++ c ++ " inherits from itself"
  | unwalkableBounce bouncer via => "unable to walk " ++ via.render ++ " for " ++ bouncer.render

/-- Add findings in order, each the first time only. -/
def record (known new : List Finding) : List Finding :=
  new.foldl (fun fs f => if f ∈ fs then fs else fs ++ [f]) known

end Finding
end Lineage
