import FormLower.Place

/-! # Reports

What every error of the library can be reduced to, whatever caused it: how grave it is, what went
wrong, which part of the library says so, and where. -/

namespace FormLower

/-- How grave an error is. -/
inductive Level where
  | info
  | warning
  | error
  | critical
deriving DecidableEq, Repr

def Level.text : Level → String
  | .info => "INFO"
  | .warning => "WARNING"
  | .error => "ERROR"
  | .critical => "CRITICAL"

/-- An error reduced to what a user is shown. -/
structure Report where
  level : Level
  message : String
  issuer : String
  place : Place
deriving DecidableEq, Repr

namespace Report

/-- The fields of a report after its banner, separated by bars. -/
def barred (fields : List String) : String := " | ".intercalate ("HYFORGE" :: fields)

/-- The report that a user is shown: level, location and message. -/
def summary (r : Report) : String :=
  barred [r.level.text, (r.place.location.map Location.text).getD "unknown location", r.message]

/-- The report with the issuer and the span as well. -/
def detail (r : Report) : String :=
  barred [r.level.text, (r.place.location.map Location.text).getD "unknown", r.issuer,
    (r.place.span.map Span.text).getD "span:none", r.message]

/-- The message, with the location if there is one. -/
def located (r : Report) : String :=
  match r.place.location with
  | some l => r.message ++ " (at " ++ l.text ++ ")"
  | none => r.message

end Report

end FormLower
