import ApiScaffold.Model.Basic

set_option autoImplicit false

/-! # The order of models

Models are put in an order in which each stands behind the models that it depends on. They are
visited depth first, in the order given; a dependency on a model that is still being visited would
close a cycle and is noted as a back edge instead. -/

namespace ApiScaffold

/-- The models in order, and the dependencies that the order does not respect. -/
structure ModelOrder where
  models : List Model := []
  backEdges : List (String × String) := []
  /-- The models that are being visited. -/
  visiting : List String := []
deriving DecidableEq, Repr, Inhabited

namespace ModelOrder

/-- The first model of a name. -/
def find? (models : List Model) (name : String) : Option Model :=
  models.find? (·.name == name)

/-- Whether a model has its place in the order. -/
def placed (o : ModelOrder) (name : String) : Bool :=
  o.models.any (·.name == name)

/-- Visit the model of a name and, before it, what it depends on; `fuel` bounds the depth. -/
def visit (models : List Model) : Nat → ModelOrder → String → ModelOrder
  | 0, o, _ => o
  | fuel + 1, o, name =>
    if o.placed name then o
    else
      match find? models name with
      | none => o
      | some model =>
        let below := model.dependsOn.foldl
          (fun o dependency =>
            if (find? models dependency).isNone then o
            -- the dependency leads back to a model on the way down
            else if o.visiting.contains dependency then
              { o with backEdges := o.backEdges ++ [(name, dependency)] }
            else visit models fuel o dependency)
          { o with visiting := name :: o.visiting }
        { below with
          models := below.models ++ [model]
          visiting := below.visiting.erase name }

/-- Put models in order. Of models of one name only the first counts. The models that are being
visited are all different, so their number bounds the depth. -/
def ofModels (models : List Model) : ModelOrder :=
  (firsts (models.map (·.name))).foldl (visit models (models.length + 1)) {}

end ModelOrder

end ApiScaffold
