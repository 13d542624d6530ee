import Conform.Fault
import Conform.Schema
import Conform.Script.NamedTest

namespace Conform.Script

/-!
# Expressions

The terms from which a script makes values, functions and validators.  All of them are of one type, so
that a validator may stand where a value is expected, and the other way round.
-/

/-- The containers that hold items. -/
inductive ItemContainer where
  | list
  | tuple
  | set
  | frozenSet
  deriving DecidableEq, Inhabited

/-- The containers that hold entries. -/
inductive EntryContainer where
  | dict
  | orderedDict
  | view
  deriving DecidableEq, Inhabited

/-- The combinators with a single argument. -/
inductive Combinator where
  | literal
  | literals
  | shape
  | array
  | tuple
  | unionMany
  | intersectMany
  | optional
  | nullable
  deriving DecidableEq, Inhabited

/-- A term.  `define` binds the value of a term to a name, a list or a dictionary before it is filled;
    `nest` evaluates `wrap` again and again, with `hole` standing for the value so far.  A function
    raises, or applies a named test or a validator, or answers a value, whichever is given first. -/
inductive Expression where
  | value (v : Value)
  | items (container : ItemContainer) (items : List Expression)
  | entries (container : EntryContainer) (entries : List (Expression × Expression))
  | guarded (entries : List (Expression × Expression)) (keys : List Expression) (on : LookupKind)
      (fault : Fault)
  | stream (items : List Expression)
  | foreign (className : String) (shown : Except Refusal Text) (truth : Except Refusal Bool)
  | function (name : Option Text) (raises : Option Fault) (test : Option NamedTest)
      (validates answers : Option Expression)
  | sink (raisesAt : List Nat) (fault : Fault) (truth : Except Refusal Bool)
  | options (fields : List (String × Expression))
  | define (id : String) (body : Expression)
  | name (id : String)
  | nest (count : Nat) (wrap inner : Expression)
  | hole
  | primitive (kind : PrimitiveKind)
  | bare
  | apply (combinator : Combinator) (argument : Expression)
  | union (left right : Expression)
  | intersection (left right : Expression)
  | taggedUnion (tag variants : Expression)
  | predicate (function : Expression) (name : Option Expression)

instance : Inhabited Expression := ⟨.hole⟩

end Conform.Script
