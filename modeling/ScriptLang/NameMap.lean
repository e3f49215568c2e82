/-!
# Maps from names

Finite maps from names, in the order in which names were first put in.
-/

namespace ScriptLang

structure NameMap (α : Type) where
  entries : List (String × α)

namespace NameMap

variable {α : Type}

def empty : NameMap α := ⟨[]⟩

def find? (m : NameMap α) (name : String) : Option α := m.entries.lookup name

def contains (m : NameMap α) (name : String) : Bool := (m.find? name).isSome

def names (m : NameMap α) : List String := m.entries.map (·.1)

/-- Puts `a` under `name` in a list, in place of what is there. -/
def insertEntry (name : String) (a : α) : List (String × α) → List (String × α)
  | [] => [(name, a)]
  | (n, b) :: rest => if n = name then (n, a) :: rest else (n, b) :: insertEntry name a rest

/-- Puts `a` under `name`, in place of what is there. -/
def insert (m : NameMap α) (name : String) (a : α) : NameMap α := ⟨insertEntry name a m.entries⟩

@[simp] theorem find?_empty (name : String) : (empty : NameMap α).find? name = none := rfl

theorem find?_insert (m : NameMap α) (name other : String) (a : α) :
    (m.insert name a).find? other = if other = name then some a else m.find? other := by
  obtain ⟨entries⟩ := m
  simp only [find?, insert]
  induction entries with
  | nil => simp only [insertEntry, List.lookup_cons, List.lookup_nil]; grind
  | cons e rest ih =>
    obtain ⟨n, b⟩ := e
    simp only [insertEntry]
    split <;> simp only [List.lookup_cons] <;> grind

end NameMap

end ScriptLang
