import RowFilter.Query.Basic

/-! Queries built in code rather than from text. -/

namespace RowFilter.Query

/-- A variable against a value. -/
def compare (op : Operation) (name : String) (value : Value) : Query :=
  .call op [.named name, .value value]

def eq (name : String) (value : Value) : Query := compare .eq name value

def ne (name : String) (value : Value) : Query := compare .ne name value

def lt (name : String) (value : Value) : Query := compare .lt name value

def le (name : String) (value : Value) : Query := compare .le name value

def gt (name : String) (value : Value) : Query := compare .gt name value

def ge (name : String) (value : Value) : Query := compare .ge name value

def isIn (name : String) (value : Value) : Query := compare .isIn name value

def not (q : Query) : Query := .call .not [q]

def and (left right : Query) : Query := .call .and [left, right]

def or (left right : Query) : Query := .call .or [left, right]

/-- The conjunction of any positive number of queries. -/
def allOf (qs : List Query) : Option Query := foldRight .and qs

/-- The disjunction of any positive number of queries. -/
def anyOf (qs : List Query) : Option Query := foldRight .or qs

end RowFilter.Query
