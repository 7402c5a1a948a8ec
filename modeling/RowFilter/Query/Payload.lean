import RowFilter.Json.Basic
import RowFilter.Query.Basic

/-! The JSON document that carries a query to the service. Names and addresses are
both written as variables, so only a resolved query is meant to be sent. -/

namespace RowFilter

def Value.toJson : Value → Json
  | .int value => .int value.toInt
  | .float value => .float value
  | .str text => .str text
  | .ints items => .list (items.map fun item => .int item.toInt)
  | .strs items => .list (items.map .str)

namespace Query

mutual

def toJson : Query → Json
  | .named name => .record [("variable", .str name)]
  | .address text => .record [("variable", .str text)]
  | .value v => .record [("value", v.toJson)]
  | .call op args => .record [("function", .str op.name), ("args", .list (toJsonAll args))]
termination_by structural q => q

def toJsonAll : List Query → List Json
  | [] => []
  | q :: qs => q.toJson :: toJsonAll qs
termination_by structural qs => qs

end

/-- The payload on one line. -/
def payload (q : Query) : String := q.toJson.compact

end Query

end RowFilter
