import ApiScaffold.Endpoint.Basic
import ApiScaffold.Model.Basic

set_option autoImplicit false

/-! # Batches

Everything that the files of one resource are written from. -/

namespace ApiScaffold

/-- The models, the controller and the service of a resource. -/
structure Batch where
  resourceName : String
  models : ModelBatch := {}
  controller : Option Controller := none
  service : Option Service := none
deriving DecidableEq, Repr, Inhabited

end ApiScaffold
