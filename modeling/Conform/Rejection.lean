import Conform.Value

namespace Conform

/-!
# Rejections and failure reports

While a value is checked, the way from the root to the part under inspection is a list of segments.  A
rejection is noted together with that list; a report shows it as a path.

* `Segment`, `pathText` — steps into a value, and the path they are written as;
* `Rejection` — what the evaluation notes;
* `Failure` — what the caller reads, and `Failure.line`, its one-line form.
-/

/-- A step into a value: to a field, or to the item at an index. -/
inductive Segment where
  | field (name : Label)
  | index (i : Nat)
  deriving DecidableEq, Inhabited

/-- A segment inside a path. -/
def Segment.text : Segment → Text
  | .field name => "." ++ name.inline
  | .index i => "[" ++ toString i ++ "]"

/-- The path of a list of segments, outermost first.  All dots in front are dropped. -/
def pathText (trail : List Segment) : Text :=
  (trail.flatMap Segment.text).dropWhile (· = ('.' : CodePoint))

/-- A rejection by one combinator, with the way to the part of the value it is about. -/
structure Rejection where
  trail : List Segment
  code : FailureCode
  message : Text
  deriving DecidableEq, Inhabited

/-- A rejection as the caller reads it; the empty path is the root value. -/
structure Failure where
  path : Text
  code : FailureCode
  message : Text
  deriving DecidableEq, Inhabited

/-- The report of a rejection. -/
def Rejection.report (r : Rejection) : Failure := ⟨pathText r.trail, r.code, r.message⟩

namespace Failure

/-- The path, or a name for the root. -/
def location (f : Failure) : Text := if f.path.isEmpty then "<root>" else f.path

/-- The one-line form of a failure. -/
def line (f : Failure) : Text := f.location ++ ": [" ++ f.code.name ++ "] " ++ f.message

end Failure

end Conform
