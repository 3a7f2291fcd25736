import RippleCarry.Signal
import Std.Data.TreeMap
/-!
# Maps keyed by signals

Values, depths and net names are kept per signal. A map is looked up with `get?`; the lemmas say
what each operation does to the look-ups, and `toList` lists the bindings by increasing id.
-/

namespace RippleCarry

structure SignalMap (α : Type) where
  entries : Std.TreeMap UInt64 α

namespace SignalMap

variable {α : Type}

def empty : SignalMap α := ⟨∅⟩

def get? (m : SignalMap α) (s : Signal) : Option α := m.entries[s.id]?

/-- Binds `s`, over an earlier binding. -/
def insert (m : SignalMap α) (s : Signal) (v : α) : SignalMap α := ⟨m.entries.insert s.id v⟩

/-- Binds `s` unless it is bound already. -/
def insertIfNew (m : SignalMap α) (s : Signal) (v : α) : SignalMap α :=
  match m.get? s with
  | some _ => m
  | none => m.insert s v

/-- Binds the pairs in order, so that the last one for a signal stays. -/
def insertAll (m : SignalMap α) (pairs : List (Signal × α)) : SignalMap α :=
  pairs.foldl (fun m p => m.insert p.1 p.2) m

/-- The bindings, by increasing id. -/
def toList (m : SignalMap α) : List (Signal × α) := m.entries.toList.map fun (id, v) => (⟨id⟩, v)

@[simp] theorem get?_empty (s : Signal) : (empty : SignalMap α).get? s = none := by
  simp [get?, empty]

theorem get?_insert (m : SignalMap α) (s t : Signal) (v : α) :
    (m.insert s v).get? t = if s = t then some v else m.get? t := by
  obtain ⟨a⟩ := s
  obtain ⟨b⟩ := t
  simp [get?, insert, Std.TreeMap.getElem?_insert]

theorem get?_insertIfNew (m : SignalMap α) (s t : Signal) (v : α) :
    (m.insertIfNew s v).get? t = if s = t then some ((m.get? s).getD v) else m.get? t := by
  unfold insertIfNew
  split
  · next w h => split <;> simp_all
  · next h => simp [get?_insert, h]

theorem insertAll_append (m : SignalMap α) (p q : List (Signal × α)) :
    m.insertAll (p ++ q) = (m.insertAll p).insertAll q := by
  simp [insertAll]

end SignalMap
end RippleCarry
