/-!
# The three kinds of jobs
-/

namespace JobConfig

/-- When a job runs: before a change is merged, after it, or by the clock. -/
inductive Kind where
  | presubmit
  | postsubmit
  | periodic
deriving DecidableEq, Inhabited

namespace Kind

/-- All kinds, in the order in which job sets list them. -/
def all : List Kind := [.presubmit, .postsubmit, .periodic]

/-- The word for one job of the kind. -/
def word : Kind → String
  | .presubmit => "presubmit"
  | .postsubmit => "postsubmit"
  | .periodic => "periodic"

/-- The word for the kind in file names and job sets. -/
def token : Kind → String
  | .presubmit => "presubmits"
  | .postsubmit => "postsubmits"
  | .periodic => "periodics"

/-- The kind of a token. -/
def ofToken? (t : String) : Option Kind :=
  all.find? fun k => k.token == t

theorem ofToken?_token (k : Kind) : ofToken? k.token = some k := by
  cases k <;> decide

theorem token_of_ofToken? {t : String} {k : Kind} (h : ofToken? t = some k) : k.token = t := by
  simpa using List.find?_some h

end Kind

end JobConfig
