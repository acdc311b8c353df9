import Std.Data.TreeMap
import Std.Data.TreeSet

/-!
# Partitions

A partition is a list of classes, each an ascending list of distinct elements. Two partitions are
equal if they have as many classes and every class of the first is one of the second.
-/

namespace FiniteState

/-- Classes of elements. -/
structure Partition (α : Type) where
  classes : List (List α)

namespace Partition

variable {α : Type} [Ord α]

/-- The distinct elements of a list, ascending. -/
def classOfList (elements : List α) : List α :=
  (elements.foldl Std.TreeSet.insert (∅ : Std.TreeSet α)).toList

/-- The classes with the given elements, empty ones included. -/
def ofClasses (classes : List (List α)) : Partition α := ⟨classes.map classOfList⟩

/-- The classes with the given elements, without the empty ones. -/
def ofLists (classes : List (List α)) : Partition α :=
  ⟨(classes.map classOfList).filter (! ·.isEmpty)⟩

/-- The number of classes. -/
def size (P : Partition α) : Nat := P.classes.length

/-- Gives the elements of a class its position. -/
def addClass (found : Std.TreeMap α Nat) (c : List α × Nat) : Std.TreeMap α Nat :=
  c.1.foldl (fun found x => found.insert x c.2) found

/-- The position of the class of each element; for an element of several classes, the last one. -/
def classMap (P : Partition α) : Std.TreeMap α Nat := P.classes.zipIdx.foldl addClass ∅

/-- Whether two partitions have as many classes and each class of the first is one of the second. -/
def beq [BEq α] (P Q : Partition α) : Bool :=
  P.size == Q.size && P.classes.all Q.classes.contains

instance [BEq α] : BEq (Partition α) := ⟨beq⟩

end Partition

end FiniteState
