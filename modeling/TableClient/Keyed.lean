/-! Tables from names to values, kept as lists in the order of their names. Writing under a name
replaces what stood there; reading sees the last write. -/

namespace TableClient.Keyed

variable {α : Type u}

/-- The value under a name. -/
def find? (name : String) : List (String × α) → Option α
  | [] => none
  | (k, a) :: rest => if k = name then some a else find? name rest

/-- Writes a value under a name, at the place of the name in the order. -/
def insert (name : String) (value : α) : List (String × α) → List (String × α)
  | [] => [(name, value)]
  | (k, a) :: rest =>
    if name = k then (name, value) :: rest
    else if name < k then (name, value) :: (k, a) :: rest
    else (k, a) :: insert name value rest

/-- Takes a name and its value out. -/
def erase (name : String) (table : List (String × α)) : List (String × α) :=
  table.filter (·.1 ≠ name)

/-- The table of pairs written one after another. -/
def ofList (pairs : List (String × α)) : List (String × α) :=
  pairs.foldl (fun table p => insert p.1 p.2 table) []

/-- The first name, in order, whose value passes a test. -/
def nameFor? (test : α → Bool) (table : List (String × α)) : Option String :=
  (table.find? fun p => test p.2).map Prod.fst

theorem find?_insert (name key : String) (value : α) (table : List (String × α)) :
    find? key (insert name value table) = if name = key then some value else find? key table := by
  induction table with
  | nil => rfl
  | cons p rest ih =>
    obtain ⟨k, a⟩ := p
    simp only [insert]
    split
    · next same => subst same; by_cases h : name = key <;> simp [find?, h]
    · split
      · rfl
      · by_cases h : k = key <;> simp_all [find?]

theorem find?_erase (name key : String) (table : List (String × α)) :
    find? key (erase name table) = if name = key then none else find? key table := by
  induction table with
  | nil => simp [erase, find?]
  | cons p rest ih =>
    obtain ⟨k, a⟩ := p
    simp only [erase, List.filter_cons] at ih ⊢
    by_cases h : k = name <;> by_cases g : k = key <;> simp_all [find?]
    exact fun same => absurd same.symm h

end TableClient.Keyed
