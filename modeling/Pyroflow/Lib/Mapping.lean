import Mathlib.Logic.Function.Basic

/-!
# Mappings that may forget

A mutable mapping whose operations take place at a time (`Mapping`), as a program sees it
that may be given a dictionary or a cache: what is found under a key, what a look at it
leaves, assignment, a change of the value in place, and deletion. The other operations
(`get`, `setdefault`, `pop`) come down to these.

`Mapping.plain` is the dictionary, which keeps everything and ignores the time.
-/

/-- A mutable mapping, with operations that take place at a time. -/
structure Mapping (K V Time : Type) where
  /-- The mappings. -/
  Dict : Type
  /-- The empty mapping. -/
  empty : Dict
  /-- What `d[key]` is at a time, if `key in d` then. -/
  lookup : Dict → Time → K → Option V
  /-- What the evaluation of `d[key]` leaves, for a key present. -/
  access : Dict → K → Dict
  /-- `d[key] = value` at a time. -/
  assign : Dict → Time → K → V → Dict
  /-- The value under a key changes in place. -/
  mutate : Dict → K → V → Dict
  /-- `del d[key]`, for a key present. -/
  delete : Dict → K → Dict

namespace Mapping

variable {K V Time : Type} (M : Mapping K V Time)

/-- `d.get(key, default)`. -/
def get (d : M.Dict) (now : Time) (key : K) (default : V) : V × M.Dict :=
  match M.lookup d now key with
  | some v => (v, M.access d key)
  | none => (default, d)

/-- `d.setdefault(key, default)`. -/
def setdefault (d : M.Dict) (now : Time) (key : K) (default : V) : V × M.Dict :=
  match M.lookup d now key with
  | some v => (v, M.access d key)
  | none => (default, M.assign d now key default)

/-- `d.pop(key, default)`. -/
def pop (d : M.Dict) (now : Time) (key : K) (default : V) : V × M.Dict :=
  match M.lookup d now key with
  | some v => (v, M.delete (M.access d key) key)
  | none => (default, d)

/-- The dictionary. -/
abbrev plain (K V Time : Type) [DecidableEq K] : Mapping K V Time where
  Dict := K → Option V
  empty := fun _ => none
  lookup d _ key := d key
  access d _ := d
  assign d _ key v := Function.update d key (some v)
  mutate d key v := Function.update d key ((d key).map fun _ => v)
  delete d key := Function.update d key none

variable [DecidableEq K] (d : K → Option V) (now : Time) (key : K) (default : V)

theorem plain_get : (plain K V Time).get d now key default = ((d key).getD default, d) := by
  rw [get]
  cases h : d key <;> simp only [h, Option.getD_none, Option.getD_some]

theorem plain_setdefault : (plain K V Time).setdefault d now key default =
    ((d key).getD default, Function.update d key (some ((d key).getD default))) := by
  rw [setdefault]
  cases h : d key with
  | none => simp only [h, Option.getD_none]
  | some v =>
    simp only [h, Option.getD_some]
    rw [← h, Function.update_eq_self]

theorem plain_pop : (plain K V Time).pop d now key default =
    ((d key).getD default, Function.update d key none) := by
  rw [pop]
  cases h : d key with
  | none =>
    simp only [h, Option.getD_none]
    rw [← h, Function.update_eq_self]
  | some v => simp only [h, Option.getD_some]

end Mapping
