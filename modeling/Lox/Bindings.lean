namespace Lox

/-- Names with what they are bound to, in the order in which they were first bound. -/
structure Bindings (α : Type) where
  entries : List (String × α) := []

namespace Bindings

variable {α : Type}

def empty : Bindings α := {}

def getEntry? (name : String) : List (String × α) → Option α
  | [] => none
  | (n, v) :: rest => if n = name then some v else getEntry? name rest

def get? (b : Bindings α) (name : String) : Option α := getEntry? name b.entries

def contains (b : Bindings α) (name : String) : Bool := (b.get? name).isSome

/-- Replaces the binding of a name, or adds it at the end. -/
def setEntry (name : String) (value : α) : List (String × α) → List (String × α)
  | [] => [(name, value)]
  | (n, v) :: rest =>
    if n = name then (n, value) :: rest else (n, v) :: setEntry name value rest

def set (b : Bindings α) (name : String) (value : α) : Bindings α :=
  ⟨setEntry name value b.entries⟩

/-- Binds names in order, a later binding of a name replacing an earlier one. -/
def ofList (entries : List (String × α)) : Bindings α :=
  entries.foldl (fun b (n, v) => b.set n v) empty

theorem getEntry?_setEntry (name other : String) (value : α) (entries : List (String × α)) :
    getEntry? other (setEntry name value entries) =
      if name = other then some value else getEntry? other entries := by
  induction entries with
  | nil => rfl
  | cons entry rest ih =>
    obtain ⟨n, v⟩ := entry
    by_cases hn : n = name
    · subst hn
      by_cases h : n = other <;> simp [setEntry, getEntry?, h]
    · by_cases h : n = other
      · subst h
        simp [setEntry, getEntry?, hn, Ne.symm hn]
      · simp [setEntry, getEntry?, hn, h, ih]

@[simp] theorem get?_empty (name : String) : (empty : Bindings α).get? name = none := rfl

@[simp] theorem get?_set (b : Bindings α) (name other : String) (value : α) :
    (b.set name value).get? other = if name = other then some value else b.get? other :=
  getEntry?_setEntry name other value b.entries

end Bindings

end Lox
