/-!
# Sorting by name

Strings compare character by character, which is also the order of their UTF-8 bytes. Elements with
equal keys keep their order.
-/

namespace CommandGrammar.Text

variable {α : Type}

/-- Puts an element in front of the first one whose key is not smaller. -/
def insertByKey (key : α → String) (a : α) : List α → List α
  | [] => [a]
  | b :: bs => if key b < key a then b :: insertByKey key a bs else a :: b :: bs

def sortByKey (key : α → String) (as : List α) : List α := as.foldr (insertByKey key) []

def sort (as : List String) : List String := sortByKey id as

theorem insertByKey_perm (key : α → String) (a : α) (as : List α) :
    (insertByKey key a as).Perm (a :: as) := by
  induction as with
  | nil => exact .refl _
  | cons b bs ih =>
    rw [insertByKey]
    split
    · exact (ih.cons b).trans (.swap a b bs)
    · exact .refl _

theorem sortByKey_perm (key : α → String) (as : List α) : (sortByKey key as).Perm as := by
  induction as with
  | nil => exact .refl _
  | cons a as ih => exact (insertByKey_perm key a _).trans (ih.cons a)

end CommandGrammar.Text
