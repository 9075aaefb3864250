/-!
Ordered pairs: named values in the order in which the names were first set. Setting a name again
keeps its place and takes the new value.
-/
namespace Daybook

/-- Named values in the order of their first setting. -/
abbrev Pairs (α : Type) := List (String × α)

namespace Pairs
variable {α : Type}

/-- Sets a name: a name that is there keeps its place, a new one goes to the end. -/
def put : Pairs α → String → α → Pairs α
  | [], name, value => [(name, value)]
  | (n, v) :: rest, name, value =>
    if n = name then (n, value) :: rest else (n, v) :: put rest name value

/-- The value under a name. -/
def get? (ps : Pairs α) (name : String) : Option α :=
  (ps.find? fun p => p.1 = name).map (·.2)

/-- The names in order. -/
def names (ps : Pairs α) : List String := ps.map (·.1)

/-- Sets the names one after another, so that of a repeated name the last value stays. -/
def collect (ps : List (String × α)) : Pairs α := ps.foldl (fun m p => put m p.1 p.2) []

/-- `upper` laid over `lower`: a name in both keeps the place of `lower` and the value of `upper`. -/
def overlay (lower upper : Pairs α) : Pairs α := upper.foldl (fun m p => put m p.1 p.2) lower

/-- Leaves out the given names. -/
def without (ps : Pairs α) (left : List String) : Pairs α :=
  ps.filter fun p => !left.contains p.1

@[simp] theorem get?_put_self (ps : Pairs α) (name : String) (v : α) :
    (ps.put name v).get? name = some v := by
  induction ps with
  | nil => simp [put, get?]
  | cons p ps ih =>
    by_cases h : p.1 = name
    · simp [put, get?, h]
    · simpa [put, get?, h] using ih

theorem get?_put_of_ne {a b : String} (h : a ≠ b) (ps : Pairs α) (v : α) :
    (ps.put a v).get? b = ps.get? b := by
  induction ps with
  | nil => simp [put, get?, h]
  | cons p ps ih =>
    by_cases hp : p.1 = a
    · simp [put, get?, hp, h]
    · by_cases hb : p.1 = b
      · simp [put, get?, hb, Ne.symm h]
      · simpa [put, get?, hp, hb] using ih

/-- Setting a name that is there moves nothing; a new name goes to the end. -/
theorem names_put (ps : Pairs α) (name : String) (v : α) :
    (ps.put name v).names = if name ∈ ps.names then ps.names else ps.names ++ [name] := by
  induction ps with
  | nil => simp [put, names]
  | cons p ps ih =>
    by_cases h : p.1 = name
    · simp [put, names, h]
    · simp only [names, put, if_neg h, List.map_cons, List.mem_cons] at ih ⊢
      rw [ih]
      by_cases hm : name ∈ ps.map (·.1)
      · simp [hm]
      · simp [hm, Ne.symm h]

end Pairs
end Daybook
