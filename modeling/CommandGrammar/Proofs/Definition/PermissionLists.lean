import CommandGrammar.Definition.Permission
import CommandGrammar.Proofs.Text.ByteOrder
import CommandGrammar.Proofs.Text.Trimming
import Mathlib.Data.List.Nodup
import Mathlib.Data.String.Basic

/-!
# Lists of permissions

A set keeps its names strictly ascending, so it is determined by what it grants. A list between
commas grants the trimmed pieces of its text, the empty ones left out, and putting two lists together
puts their pieces together.
-/

namespace CommandGrammar.PermissionSet

/-! ### Sets of names -/

variable {name n : String} {names : List String}

theorem mem_insert_iff : n ∈ insert name names ↔ n = name ∨ n ∈ names := by
  induction names with
  | nil => exact List.mem_cons
  | cons first names ih =>
      rw [insert]
      split_ifs with heq hlt
      · rw [heq, List.mem_cons, ← or_assoc, or_self]
      · exact List.mem_cons
      · rw [List.mem_cons, ih, List.mem_cons, or_left_comm]

theorem ascending_insert (name : String) (h : names.Pairwise (· < ·)) :
    (insert name names).Pairwise (· < ·) := by
  induction names with
  | nil => exact List.pairwise_singleton _ name
  | cons first names ih =>
      obtain ⟨hfirst, hrest⟩ := List.pairwise_cons.mp h
      rw [insert]
      split_ifs with heq hlt
      · exact h
      · refine List.pairwise_cons.mpr ⟨fun m hm => ?_, h⟩
        rcases List.mem_cons.mp hm with rfl | hmem
        · exact hlt
        · exact hlt.trans (hfirst m hmem)
      · refine List.pairwise_cons.mpr ⟨fun m hm => ?_, ih hrest⟩
        rcases mem_insert_iff.mp hm with rfl | hmem
        · exact lt_of_le_of_ne (not_lt.mp hlt) (Ne.symm heq)
        · exact hfirst m hmem

theorem mem_foldl_grant_iff {p : PermissionSet} :
    n ∈ (names.foldl grant p).names ↔ n ∈ names ∨ n ∈ p.names := by
  induction names generalizing p with
  | nil => simp
  | cons first names ih =>
      rw [List.foldl_cons, ih, grant, mem_insert_iff, List.mem_cons, or_assoc, or_left_comm]

theorem ascending_foldl_grant {p : PermissionSet} (h : p.names.Pairwise (· < ·)) :
    (names.foldl grant p).names.Pairwise (· < ·) := by
  induction names generalizing p with
  | nil => exact h
  | cons first names ih => exact ih (ascending_insert first h)

theorem mem_ofList_iff : n ∈ (ofList names).names ↔ n ∈ names := by
  rw [ofList, mem_foldl_grant_iff]
  exact or_iff_left List.not_mem_nil

theorem ascending_ofList (names : List String) : (ofList names).names.Pairwise (· < ·) :=
  ascending_foldl_grant List.Pairwise.nil

/-- Ascending names are determined by which names are among them. -/
theorem eq_of_mem_iff {p q : PermissionSet} (hp : p.names.Pairwise (· < ·))
    (hq : q.names.Pairwise (· < ·)) (h : ∀ n, n ∈ p.names ↔ n ∈ q.names) : p = q := by
  have hperm : p.names.Perm q.names :=
    (List.perm_ext_iff_of_nodup (hp.imp ne_of_lt) (hq.imp ne_of_lt)).mpr h
  have heq : p.names = q.names :=
    hperm.eq_of_pairwise (fun _ _ _ _ hlt hgt => absurd hgt (lt_asymm hlt)) hp hq
  cases p
  cases q
  exact congrArg PermissionSet.mk heq

/-! ### Pieces of a text -/

theorem pieces_eq_splitOn (text : List Char) : pieces text = text.splitOn ',' := by
  induction text with
  | nil => rfl
  | cons c text ih =>
      rw [pieces, List.splitOn_cons_eq_if_modifyHead, ih]
      by_cases hc : c = ','
      · rw [if_pos hc, if_pos (beq_iff_eq.mpr hc)]
      · rw [if_neg hc, if_neg (hc ∘ beq_iff_eq.mp)]
        cases hpieces : text.splitOn ',' with
        | nil => exact absurd hpieces (List.splitOn_ne_nil _ _)
        | cons piece rest => rfl

theorem comma_notMem_of_mem_splitOn {text piece : List Char} (h : piece ∈ text.splitOn ',') :
    ',' ∉ piece := by
  induction text generalizing piece with
  | nil =>
      rw [List.splitOn_nil] at h
      exact List.mem_singleton.mp h ▸ List.not_mem_nil
  | cons c text ih =>
      obtain ⟨first, rest, hsplit⟩ := List.exists_cons_of_ne_nil (List.splitOn_ne_nil ',' text)
      have hfirst : ',' ∉ first := ih (hsplit ▸ List.mem_cons_self)
      rw [List.splitOn_cons_eq_if_modifyHead] at h
      split_ifs at h with hc
      · rcases List.mem_cons.mp h with rfl | hmem
        · exact List.not_mem_nil
        · exact ih hmem
      · rw [hsplit, List.modifyHead_cons] at h
        rcases List.mem_cons.mp h with rfl | hmem
        · rw [List.mem_cons, not_or]
          exact ⟨fun heq => hc (beq_iff_eq.mpr heq.symm), hfirst⟩
        · exact ih (hsplit ▸ List.mem_cons_of_mem first hmem)

/-! ### Lists between commas -/

theorem mem_ofCommaList_iff {list name : String} :
    name ∈ (ofCommaList list).names
      ↔ name ≠ "" ∧ ∃ piece ∈ list.toList.splitOn ',', Text.trim piece = name.toList := by
  have hempty : name ≠ "" ↔ name.toList ≠ [] := String.toList_eq_nil_iff.symm.not
  rw [ofCommaList, mem_ofList_iff, pieces_eq_splitOn, hempty]
  simp only [List.mem_map, List.mem_filter, Bool.not_eq_true', List.isEmpty_eq_false_iff]
  constructor
  · rintro ⟨entry, ⟨hpiece, hne⟩, rfl⟩
    rw [String.toList_ofList]
    exact ⟨hne, hpiece⟩
  · rintro ⟨hne, hpiece⟩
    exact ⟨name.toList, ⟨hpiece, hne⟩, String.ofList_toList⟩

/-- What a name has to be like so that a list can grant it. -/
structure Listable (name : String) : Prop where
  nonempty : name ≠ ""
  trimmed : Text.Trimmed name.toList
  undivided : ',' ∉ name.toList

theorem listable_of_mem {list name : String} (h : name ∈ (ofCommaList list).names) :
    Listable name := by
  obtain ⟨hne, piece, hpiece, htrim⟩ := mem_ofCommaList_iff.mp h
  obtain ⟨htrimmed, left, right, hsplit, -, -⟩ := Text.trim_eq_iff.mp htrim
  refine ⟨hne, htrimmed, fun hcomma => comma_notMem_of_mem_splitOn hpiece ?_⟩
  rw [hsplit]
  exact List.mem_append_left right (List.mem_append_right left hcomma)

theorem mem_ofCommaList_append_iff {left right name : String} :
    name ∈ (ofCommaList (left ++ "," ++ right)).names
      ↔ name ∈ (ofCommaList left).names ∨ name ∈ (ofCommaList right).names := by
  have hsplit : (left ++ "," ++ right).toList.splitOn ','
      = left.toList.splitOn ',' ++ right.toList.splitOn ',' := by
    rw [String.toList_append, String.toList_append, List.append_assoc]
    exact List.splitOn_append_cons_self _ _
  simp only [mem_ofCommaList_iff, hsplit, List.mem_append, or_and_right, exists_or, and_or_left]

/-- Names that a list can grant are granted by the list of them. -/
theorem mem_ofCommaList_intercalate_iff {names : List String} (hnames : ∀ n ∈ names, Listable n)
    {name : String} : name ∈ (ofCommaList (",".intercalate names)).names ↔ name ∈ names := by
  rw [mem_ofCommaList_iff, String.toList_intercalate]
  cases names with
  | nil =>
      refine iff_of_false ?_ List.not_mem_nil
      rintro ⟨hne, piece, hpiece, htrim⟩
      obtain rfl := List.mem_singleton.mp hpiece
      exact hne (String.toList_eq_nil_iff.mp htrim.symm)
  | cons first names =>
      have hsplit : ([','].intercalate ((first :: names).map String.toList)).splitOn ','
          = (first :: names).map String.toList := by
        apply List.splitOn_intercalate
        · exact List.forall_mem_map.mpr fun n hn => (hnames n hn).undivided
        · exact List.cons_ne_nil _ _
      have hself : ∀ n ∈ first :: names, Text.trim n.toList = n.toList := fun n hn =>
        (hnames n hn).trimmed.trim_eq_self
      rw [show ",".toList = [','] from rfl, hsplit]
      constructor
      · rintro ⟨-, piece, hpiece, htrim⟩
        obtain ⟨n, hn, rfl⟩ := List.mem_map.mp hpiece
        rw [hself n hn] at htrim
        exact String.toList_inj.mp htrim ▸ hn
      · intro hmem
        exact ⟨(hnames name hmem).nonempty, _, List.mem_map_of_mem hmem, hself name hmem⟩

/-- **Lists of permissions are exact and canonical.** A list grants what is left of the pieces
between its commas when blanks are cut off around them, and never an empty name, one with a blank at
an end or one with a comma. Two lists with a comma between them grant what either of them grants.
The names of a set ascend by their bytes, and the list of them is read as the same set. -/
theorem ofCommaList_exact :
    (∀ list name : String, PermissionSource.hasPermission (ofCommaList list) name = true
      ↔ name ≠ "" ∧ ∃ piece ∈ list.toList.splitOn ',', Text.TrimsTo piece name.toList)
    ∧ (∀ list name : String, PermissionSource.hasPermission (ofCommaList list) name = true →
      Listable name)
    ∧ (∀ left right name : String,
      PermissionSource.hasPermission (ofCommaList (left ++ "," ++ right)) name = true
        ↔ PermissionSource.hasPermission (ofCommaList left) name = true
          ∨ PermissionSource.hasPermission (ofCommaList right) name = true)
    ∧ ∀ list : String, ((ofCommaList list).names.map Text.utf8).Pairwise (· < ·)
      ∧ ofCommaList (",".intercalate (ofCommaList list).names) = ofCommaList list := by
  have hgrants : ∀ (p : PermissionSet) (name : String),
      PermissionSource.hasPermission p name = true ↔ name ∈ p.names := fun _ _ =>
    List.contains_iff_mem
  simp only [hgrants]
  refine ⟨?_, ?_, ?_, ?_⟩
  · intro list name
    simp only [mem_ofCommaList_iff, Text.trim_eq_iff]
  · intro list name
    exact listable_of_mem
  · intro left right name
    exact mem_ofCommaList_append_iff
  · intro list
    constructor
    · exact List.pairwise_map.mpr ((ascending_ofList _).imp Text.utf8_lt_of_lt)
    · refine eq_of_mem_iff (ascending_ofList _) (ascending_ofList _) fun name => ?_
      exact mem_ofCommaList_intercalate_iff fun n hn => listable_of_mem hn

/-- Spaces, an ideographic one among them, and a piece with nothing in it are left out. -/
theorem ofCommaList_exact_outerBlanks :
    PermissionSource.hasPermission (ofCommaList " b ,a,, c\u3000") "c" = true
      ∧ Listable "c"
      ∧ ofCommaList " b ,a,, c\u3000" = ⟨["a", "b", "c"]⟩
      ∧ ofCommaList "a,b,c" = ⟨["a", "b", "c"]⟩ := by
  obtain ⟨-, hlistable, hunion, hread⟩ := ofCommaList_exact
  have hread := (hread " b ,a,, c\u3000").2
  have hset : ofCommaList " b ,a,, c\u3000" = ⟨["a", "b", "c"]⟩ := by decide +kernel
  have hc : PermissionSource.hasPermission (ofCommaList " b ,a,, c\u3000") "c" = true :=
    (hunion " b ,a" ", c\u3000" "c").mpr (.inr (by decide +kernel))
  rw [hset] at hread
  exact ⟨hc, hlistable _ _ hc, hset, hread⟩

end CommandGrammar.PermissionSet
