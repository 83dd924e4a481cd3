import Blackboard.Lib.Schema
import Blackboard.Spec.Args
import Blackboard.Spec.Plans

/-! `RemediationPlan.model_validate`: the JSON that is accepted as a plan, from a model, over HTTP or out of the column.
The error that names the offending field is none here. `ofText` is the integer that pydantic takes a text for. -/

namespace Blackboard.Plans

open Schema

/-- `^[a-z0-9]([-a-z0-9]{0,61}[a-z0-9])?$` -/
def K8S_NAME (s : String) : Bool :=
  s.toList.head?.any Tools.labelEdge && s.toList.getLast?.any Tools.labelEdge &&
    s.toList.all (fun c => Tools.labelEdge c || c = '-') && s.length ≤ 63

end Blackboard.Plans
