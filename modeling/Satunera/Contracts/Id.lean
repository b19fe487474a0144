import Satunera.Base.Label

/-!
# Names that travel between the crates

The string identifiers and the enumerations both crates use. Each identifier is its own type, so that a problem id
cannot stand where a category id is meant; each enumeration has the text form it carries in JSON and in the database.
-/

namespace Satunera.Contracts

open Satunera.Base

/-- One problem; the name of the directory that holds its `problem.json`. -/
structure ProblemId where
  asStr : String
  deriving DecidableEq

/-- A catalog category, declared in `config.json`. -/
structure CategoryId where
  asStr : String
  deriving DecidableEq

/-- A track, declared in `config.json`. -/
structure TrackId where
  asStr : String
  deriving DecidableEq

/-- A regtest snapshot, restored before the run phase. -/
structure FixtureName where
  asStr : String
  deriving DecidableEq

/-- A submission language. -/
inductive Language
  | rust
  | py
  | cpp
  deriving DecidableEq

namespace Language

def all : List Language := [.rust, .py, .cpp]

def asStr : Language → String
  | .rust => "rust"
  | .py => "py"
  | .cpp => "cpp"

def parse (value : String) : Option Language := parseLabel all asStr value

theorem asStr_injective : Function.Injective asStr := by
  intro a b h
  cases a <;> cases b <;> first | rfl | exact absurd h (by decide)

theorem parse_eq_some_iff {value : String} {l : Language} : parse value = some l ↔ l.asStr = value :=
  parseLabel_eq_some_iff (by intro a; cases a <;> decide) asStr_injective

end Language

/-- The judge's answer for one submission. -/
inductive Verdict
  | ac
  | wa
  | tle
  | mle
  | re
  | ce
  | se
  | ie
  deriving DecidableEq

namespace Verdict

def all : List Verdict := [.ac, .wa, .tle, .mle, .re, .ce, .se, .ie]

def asStr : Verdict → String
  | .ac => "AC"
  | .wa => "WA"
  | .tle => "TLE"
  | .mle => "MLE"
  | .re => "RE"
  | .ce => "CE"
  | .se => "SE"
  | .ie => "IE"

def parse (value : String) : Option Verdict := parseLabel all asStr value

theorem asStr_injective : Function.Injective asStr := by
  intro a b h
  cases a <;> cases b <;> first | rfl | exact absurd h (by decide)

theorem parse_eq_some_iff {value : String} {v : Verdict} : parse value = some v ↔ v.asStr = value :=
  parseLabel_eq_some_iff (by intro a; cases a <;> decide) asStr_injective

def isAccepted (v : Verdict) : Bool := v = .ac

/-- The failure was the judge's or the author's, not the learner's. -/
def isInfrastructure : Verdict → Bool
  | .se | .ie => true
  | _ => false

/-- The verdict reflects something the learner's code did. -/
def countsAgainstUser (v : Verdict) : Bool := !v.isInfrastructure

end Verdict

end Satunera.Contracts
