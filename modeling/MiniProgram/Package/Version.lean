import MiniProgram.Text.Blank
import MiniProgram.Word

/-!
# Versions of packages

A version has three numbers, of which the first ones count most. A version that is not a release
comes before the release with the same numbers. What distinguishes such versions from one another,
and what follows a plus sign, is not kept.
-/

namespace MiniProgram

/-- A version of a package. -/
structure Version where
  major : Nat
  minor : Nat
  patch : Nat
  release : Bool
  deriving DecidableEq, Repr

namespace Version

/-- The numbers by which versions are ordered, the most important one first. -/
def ranks (version : Version) : List Nat :=
  [version.major, version.minor, version.patch, version.release.toNat]

/-- `a.before b` says that `b` is the higher version. -/
def before (a b : Version) : Bool :=
  a.ranks < b.ranks

/-- `beforeOption a b` extends the order to texts that are no version, which are lowest. -/
def beforeOption : Option Version → Option Version → Bool
  | _, none => false
  | none, some _ => true
  | some a, some b => a.before b

/-- The number that digits denote, if it fits in 64 bits. -/
def number? (digits : List Char) : Option Nat :=
  let value := digits.foldl (fun value d => 10 * value + (d.toNat - '0'.toNat)) 0
  if digits ≠ [] ∧ digits.all Char.isDigit ∧ value < wordLimit 64 then some value else none

/-- The version that a text denotes. Blanks around it and letters `v` in front do not count. -/
def ofText? (text : List Char) : Option Version :=
  let version := ((Text.trim text).dropWhile (· = 'v')).takeWhile (· ≠ '+')
  match (version.takeWhile (· ≠ '-')).splitOn '.' with
  | [major, minor, patch] => do
    some ⟨← number? major, ← number? minor, ← number? patch, !version.contains '-'⟩
  | _ => none

end Version

end MiniProgram
