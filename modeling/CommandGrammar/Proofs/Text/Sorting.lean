import CommandGrammar.Text.Sorting
import Mathlib.Data.List.Nodup
import Mathlib.Data.String.Basic

/-!
# Sorting is canonical

Sorted elements with different keys have one order only, so that a list of them sorts to the same
result in whatever order it comes. What is searched for among them is found at the smallest key that
has it.
-/

namespace CommandGrammar.Text

variable {α : Type} {key : α → String}

theorem insertByKey_pairwise (a : α) {as : List α} (h : as.Pairwise fun b c => key b ≤ key c) :
    (insertByKey key a as).Pairwise fun b c => key b ≤ key c := by
  induction as with
  | nil => exact List.pairwise_singleton _ a
  | cons b bs ih =>
      obtain ⟨hhead, htail⟩ := List.pairwise_cons.mp h
      rw [insertByKey]
      split
      · rename_i hlt
        refine List.pairwise_cons.mpr ⟨fun c hc => ?_, ih htail⟩
        rcases List.mem_cons.mp ((insertByKey_perm key a bs).mem_iff.mp hc) with rfl | hmem
        · exact le_of_lt hlt
        · exact hhead c hmem
      · rename_i hnot
        have hle : key a ≤ key b := le_of_not_gt hnot
        refine List.pairwise_cons.mpr ⟨fun c hc => ?_, h⟩
        rcases List.mem_cons.mp hc with rfl | hmem
        · exact hle
        · exact hle.trans (hhead c hmem)

theorem sortByKey_pairwise (key : α → String) (as : List α) :
    (sortByKey key as).Pairwise fun b c => key b ≤ key c := by
  induction as with
  | nil => exact List.Pairwise.nil
  | cons a as ih => exact insertByKey_pairwise a ih

/-- Elements with different keys sort to the same list in whatever order they come. -/
theorem sortByKey_eq_of_perm {as bs : List α} (hperm : as.Perm bs) (hnodup : (as.map key).Nodup) :
    sortByKey key as = sortByKey key bs := by
  have hall : (sortByKey key as).Perm (sortByKey key bs) :=
    (sortByKey_perm key as).trans (hperm.trans (sortByKey_perm key bs).symm)
  refine hall.eq_of_pairwise (fun a b ha hb hab hba => ?_) (sortByKey_pairwise key as)
    (sortByKey_pairwise key bs)
  have hmema : a ∈ as := (sortByKey_perm key as).mem_iff.mp ha
  have hmemb : b ∈ as := hperm.mem_iff.mpr ((sortByKey_perm key bs).mem_iff.mp hb)
  exact List.inj_on_of_nodup_map hnodup hmema hmemb (le_antisymm hab hba)

theorem sortByKey_keys_nodup {as : List α} (hnodup : (as.map key).Nodup) :
    ((sortByKey key as).map key).Nodup :=
  ((sortByKey_perm key as).map key).nodup_iff.mpr hnodup

/-- Different keys ascend strictly once they are sorted. -/
theorem sortByKey_pairwise_lt {as : List α} (hnodup : (as.map key).Nodup) :
    (sortByKey key as).Pairwise fun b c => key b < key c := by
  have hne := List.pairwise_map.mp (sortByKey_keys_nodup hnodup)
  exact ((sortByKey_pairwise key as).and hne).imp fun ⟨hle, hne⟩ => lt_of_le_of_ne hle hne

/-! ### Elements of another type -/

theorem insertByKey_map {β : Type} (f : β → α) (b : β) (bs : List β) :
    insertByKey key (f b) (bs.map f) = (insertByKey (key ∘ f) b bs).map f := by
  induction bs with
  | nil => rfl
  | cons first bs ih =>
      rw [List.map_cons, insertByKey, insertByKey, ih, Function.comp_apply, Function.comp_apply]
      by_cases hlt : key (f first) < key (f b)
      · rw [if_pos hlt, if_pos hlt, List.map_cons]
      · rw [if_neg hlt, if_neg hlt, List.map_cons, List.map_cons]

/-- Elements may be changed before or after they are sorted. -/
theorem sortByKey_map {β : Type} (key : α → String) (f : β → α) (bs : List β) :
    sortByKey key (bs.map f) = (sortByKey (key ∘ f) bs).map f := by
  induction bs with
  | nil => rfl
  | cons b bs ih =>
      calc sortByKey key ((b :: bs).map f)
          = insertByKey key (f b) (sortByKey key (bs.map f)) := rfl
        _ = insertByKey key (f b) ((sortByKey (key ∘ f) bs).map f) := by rw [ih]
        _ = (sortByKey (key ∘ f) (b :: bs)).map f := insertByKey_map f b _

/-! ### Searching -/

/-- What does not stand in front of an element of the sorted list has no smaller key. -/
theorem mem_or_le_of_sortByKey_eq {as before after : List α} {a : α}
    (hsplit : sortByKey key as = before ++ a :: after) :
    a ∈ as ∧ ∀ b ∈ as, b ∈ before ∨ key a ≤ key b := by
  have hsorted := sortByKey_pairwise key as
  have hperm := sortByKey_perm key as
  rw [hsplit] at hsorted hperm
  refine ⟨hperm.mem_iff.mp (by simp), fun b hb => ?_⟩
  have hplace : b ∈ before ∨ b = a ∨ b ∈ after := by simpa using hperm.mem_iff.mpr hb
  rcases hplace with hbefore | rfl | hafter
  · exact .inl hbefore
  · exact .inr le_rfl
  · have hlast := (List.pairwise_append.mp hsorted).2.1
    exact .inr ((List.pairwise_cons.mp hlast).1 b hafter)

/-- A search through sorted elements ends at the smallest key that gives a result. -/
theorem findSome?_sortByKey_eq_some_iff {β : Type} {f : α → Option β} {as : List α} {b : β}
    (hnodup : (as.map key).Nodup) :
    (sortByKey key as).findSome? f = some b
      ↔ ∃ a ∈ as, f a = some b ∧ ∀ a' ∈ as, key a' < key a → f a' = none := by
  constructor
  · intro h
    obtain ⟨before, a, after, hsplit, hfound, hnone⟩ := List.findSome?_eq_some_iff.mp h
    obtain ⟨ha, hplace⟩ := mem_or_le_of_sortByKey_eq hsplit
    refine ⟨a, ha, hfound, fun a' ha' hlt => ?_⟩
    rcases hplace a' ha' with hbefore | hle
    · exact hnone a' hbefore
    · exact absurd hlt (not_lt_of_ge hle)
  · rintro ⟨a, ha, hfound, hsmaller⟩
    cases hsearch : (sortByKey key as).findSome? f with
    | none =>
        have hnone := List.findSome?_eq_none_iff.mp hsearch a ((sortByKey_perm key as).mem_iff.mpr ha)
        rw [hfound] at hnone
        cases hnone
    | some b' =>
        obtain ⟨before, first, after, hsplit, hfirst, hnone⟩ := List.findSome?_eq_some_iff.mp hsearch
        obtain ⟨hmem, hplace⟩ := mem_or_le_of_sortByKey_eq hsplit
        have hnot : a ∉ before := fun hbefore => by
          rw [hnone a hbefore] at hfound
          cases hfound
        have hkey : ¬ key first < key a := fun hlt => by
          rw [hsmaller first hmem hlt] at hfirst
          cases hfirst
        have heq : key first = key a := le_antisymm ((hplace a ha).resolve_left hnot) (not_lt.mp hkey)
        rw [← hfirst, List.inj_on_of_nodup_map hnodup hmem ha heq, hfound]

/-- Among elements with different keys, a key finds the one that has it. -/
theorem find?_key_eq_some_iff {as : List α} (hnodup : (as.map key).Nodup) {k : String} {a : α} :
    (as.find? fun b => key b == k) = some a ↔ a ∈ as ∧ key a = k := by
  constructor
  · intro h
    exact ⟨List.mem_of_find?_eq_some h, by simpa using List.find?_some h⟩
  · rintro ⟨ha, hkey⟩
    cases hsearch : as.find? fun b => key b == k with
    | none => exact absurd (beq_iff_eq.mpr hkey) (List.find?_eq_none.mp hsearch a ha)
    | some b =>
        have hb : key b = k := by simpa using List.find?_some hsearch
        have hmem := List.mem_of_find?_eq_some hsearch
        rw [List.inj_on_of_nodup_map hnodup hmem ha (hb.trans hkey.symm)]

/-- Sorting does not change what a key finds. -/
theorem find?_sortByKey {as : List α} (hnodup : (as.map key).Nodup) (k : String) :
    ((sortByKey key as).find? fun a => key a == k) = as.find? fun a => key a == k := by
  apply Option.ext
  intro a
  rw [find?_key_eq_some_iff (sortByKey_keys_nodup hnodup), find?_key_eq_some_iff hnodup,
    (sortByKey_perm key as).mem_iff]

end CommandGrammar.Text
