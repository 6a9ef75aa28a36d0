/-!
# Ordered maps

Maps from names that remember the order in which names were first put in.  Putting a known name
again keeps its place.
-/

namespace Reckon

structure OrderedMap (α : Type) where
  entries : List (String × α)

namespace OrderedMap

variable {α : Type}

instance : EmptyCollection (OrderedMap α) := ⟨⟨[]⟩⟩

def get? (m : OrderedMap α) (name : String) : Option α := m.entries.lookup name

/-- Replaces the value of `name` where it stands, or puts it at the end. -/
def insertInto (name : String) (a : α) : List (String × α) → List (String × α)
  | [] => [(name, a)]
  | (k, b) :: rest => if name == k then (k, a) :: rest else (k, b) :: insertInto name a rest

def insert (m : OrderedMap α) (name : String) (a : α) : OrderedMap α :=
  ⟨insertInto name a m.entries⟩

def erase (m : OrderedMap α) (name : String) : OrderedMap α :=
  ⟨m.entries.filter fun e => !(name == e.1)⟩

def keys (m : OrderedMap α) : List String := m.entries.map (·.1)

def size (m : OrderedMap α) : Nat := m.entries.length

def isEmpty (m : OrderedMap α) : Bool := m.entries.isEmpty

/-- Puts pairs in one after the other. -/
def ofList (pairs : List (String × α)) : OrderedMap α :=
  pairs.foldl (fun m p => m.insert p.1 p.2) ∅

theorem get?_empty (name : String) : (∅ : OrderedMap α).get? name = none := rfl

theorem lookup_cons_ne {key name : String} (h : key ≠ name) (a : α) (rest : List (String × α)) :
    ((name, a) :: rest).lookup key = rest.lookup key := by
  have h' : (key == name) = false := by simpa using h
  rw [List.lookup_cons, h']

theorem lookup_insertInto (entries : List (String × α)) (name key : String) (a : α) :
    (insertInto name a entries).lookup key = if key = name then some a else entries.lookup key := by
  induction entries with
  | nil =>
    by_cases h : key = name
    · subst h; simp [insertInto]
    · simp [insertInto, lookup_cons_ne h, h]
  | cons e rest ih =>
    obtain ⟨k, b⟩ := e
    by_cases hk : name = k
    · subst hk
      by_cases h : key = name
      · subst h; simp [insertInto]
      · simp [insertInto, lookup_cons_ne h, h]
    · have hn : (name == k) = false := by simpa using hk
      by_cases h : key = k
      · subst h
        simp [insertInto, hn, Ne.symm hk]
      · simp [insertInto, hn, lookup_cons_ne h, ih]

theorem get?_insert (m : OrderedMap α) (name key : String) (a : α) :
    (m.insert name a).get? key = if key = name then some a else m.get? key :=
  lookup_insertInto m.entries name key a

theorem lookup_erased (entries : List (String × α)) (name key : String) :
    (entries.filter fun e => !(name == e.1)).lookup key =
      if key = name then none else entries.lookup key := by
  induction entries with
  | nil => simp
  | cons e rest ih =>
    obtain ⟨k, b⟩ := e
    by_cases hk : name = k
    · subst hk
      by_cases h : key = name
      · subst h; simp [ih]
      · simp [ih, h, lookup_cons_ne h]
    · have hn : (name == k) = false := by simpa using hk
      by_cases h : key = k
      · subst h
        simp [hn, Ne.symm hk]
      · simp [hn, lookup_cons_ne h, ih]

theorem get?_erase (m : OrderedMap α) (name key : String) :
    (m.erase name).get? key = if key = name then none else m.get? key :=
  lookup_erased m.entries name key

end OrderedMap

end Reckon
