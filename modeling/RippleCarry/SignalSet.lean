import RippleCarry.Signal
import Std.Data.TreeSet
/-!
# Sets of signals

A set answers `∈`; the lemmas say what each operation does to the answers.
-/

namespace RippleCarry

structure SignalSet where
  ids : Std.TreeSet UInt64

namespace SignalSet

instance : Membership Signal SignalSet where
  mem set s := s.id ∈ set.ids

instance (s : Signal) (set : SignalSet) : Decidable (s ∈ set) :=
  inferInstanceAs (Decidable (s.id ∈ set.ids))

def empty : SignalSet := ⟨∅⟩

def insert (set : SignalSet) (s : Signal) : SignalSet := ⟨set.ids.insert s.id⟩

def insertAll (set : SignalSet) (l : List Signal) : SignalSet := l.foldl insert set

def ofList (l : List Signal) : SignalSet := empty.insertAll l

@[simp] theorem not_mem_empty (s : Signal) : s ∉ empty := by
  show ¬ s.id ∈ (∅ : Std.TreeSet UInt64)
  simp

@[simp] theorem mem_insert (set : SignalSet) (s t : Signal) :
    t ∈ set.insert s ↔ t = s ∨ t ∈ set := by
  show t.id ∈ set.ids.insert s.id ↔ t = s ∨ t.id ∈ set.ids
  obtain ⟨a⟩ := s
  obtain ⟨b⟩ := t
  simp [Std.TreeSet.mem_insert, eq_comm (a := b)]

@[simp] theorem mem_insertAll (l : List Signal) (set : SignalSet) (t : Signal) :
    t ∈ set.insertAll l ↔ t ∈ l ∨ t ∈ set := by
  induction l generalizing set with
  | nil => simp [insertAll]
  | cons s l ih =>
    rw [show set.insertAll (s :: l) = (set.insert s).insertAll l from rfl, ih, mem_insert,
      List.mem_cons]
    constructor
    · rintro (h | h | h) <;> simp [h]
    · rintro ((h | h) | h) <;> simp [h]

@[simp] theorem mem_ofList (l : List Signal) (t : Signal) : t ∈ ofList l ↔ t ∈ l := by
  simp [ofList]

end SignalSet
end RippleCarry
