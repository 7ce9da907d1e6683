import CommandGrammar.Proofs.Tree.Enumeration
import CommandGrammar.Proofs.Tree.Merging
import Mathlib.Data.List.Infix

/-!
# Listed paths

A snapshot lists a path for every node that runs something: the labels of the nodes on the way to it,
those of the root and of the node included.
-/

namespace CommandGrammar

namespace Node

variable {Source Value : Type}

def labelAt? (t : Node Source Value) (path : List String) : Option (List Char) :=
  (t.at? path).map fun n => (Snapshot.capture n).label

/-- The labels of the nodes on the way to the end of a path, the root and the end included. -/
def labelsAlong (t : Node Source Value) (path : List String) : List (List Char) :=
  path.inits.filterMap t.labelAt?

theorem labelsAlong_nil (t : Node Source Value) :
    t.labelsAlong [] = [(Snapshot.capture t).label] := rfl

theorem labelsAlong_cons {t c : Node Source Value} {name : String} (hc : t.child? name = some c)
    (path : List String) :
    t.labelsAlong (name :: path) = (Snapshot.capture t).label :: c.labelsAlong path := by
  have hroot : t.labelAt? [] = some (Snapshot.capture t).label := rfl
  have hbelow : ∀ way, t.labelAt? (name :: way) = c.labelAt? way := fun way => by
    rw [labelAt?, at?_cons_of_child? hc, labelAt?]
  rw [labelsAlong, List.inits_cons, List.filterMap_cons_some hroot, List.filterMap_map, labelsAlong]
  exact congrArg _ (List.filterMap_congr fun way _ => hbelow way)

theorem labelsAlong_prefix (t : Node Source Value) (above below : List String) :
    t.labelsAlong above <+: t.labelsAlong (above ++ below) := by
  rw [labelsAlong, labelsAlong, List.inits_append, List.filterMap_append]
  exact List.prefix_append _ _

end Node

namespace Snapshot

variable {Source Value : Type}

theorem labelPathsAll_eq_flatMap (above : List (List Char)) (cs : List Snapshot) :
    labelPathsAll above cs = cs.flatMap (labelPaths above) := by
  induction cs with
  | nil => rfl
  | cons c cs ih => rw [labelPathsAll, ih, List.flatMap_cons]

/-- A path ends at a node that runs something, or goes on below a child. -/
theorem mem_labelPaths_iff {above labels : List (List Char)} {s : Snapshot} :
    labels ∈ labelPaths above s ↔ (s.header.executable = true ∧ labels = above ++ [s.label])
      ∨ ∃ c ∈ s.children, labels ∈ labelPaths (above ++ [s.label]) c := by
  obtain ⟨header, children⟩ := s
  rw [labelPaths, List.mem_append, labelPathsAll_eq_flatMap, List.mem_flatMap]
  by_cases hexec : header.executable = true
  · simp [hexec]
  · simp [hexec]

/-- The texts of paths that are given by their labels. -/
def texts (paths : List (List (List Char))) : List String :=
  paths.map fun labels => String.ofList (joinLabels labels)

theorem paths_perm_texts (s : Snapshot) : s.paths.Perm (texts (s.labelPaths [])) :=
  Text.sortByKey_perm id _

theorem paths_sorted (s : Snapshot) : s.paths.Pairwise (· ≤ ·) := Text.sortByKey_pairwise id _

theorem mem_paths_iff {s : Snapshot} {text : String} :
    text ∈ s.paths ↔ ∃ labels ∈ s.labelPaths [], String.ofList (joinLabels labels) = text := by
  rw [(paths_perm_texts s).mem_iff, texts, List.mem_map]

theorem mem_children_capture_iff {n : Node Source Value} {s : Snapshot} :
    s ∈ (capture n).children ↔ ∃ c ∈ n.children, capture c = s := by
  obtain ⟨h, children⟩ := n
  rw [capture, (Text.sortByKey_perm name _).mem_iff, Node.captureAll_eq_map, List.mem_map]

/-- The snapshot lists the way to each executable node, in labels. -/
theorem labelsAlong_mem_labelPaths {t m : Node Source Value} {path : List String}
    (hat : t.at? path = some m) (hexec : m.isExecutable = true) (above : List (List Char)) :
    above ++ t.labelsAlong path ∈ labelPaths above (capture t) := by
  induction path generalizing t above with
  | nil =>
      obtain rfl := Option.some.inj hat
      rw [mem_labelPaths_iff]
      left
      obtain ⟨h, children⟩ := t
      exact ⟨hexec, rfl⟩
  | cons childName path ih =>
      obtain ⟨c, hc, hat⟩ := Option.bind_eq_some_iff.mp hat
      rw [mem_labelPaths_iff]
      right
      refine ⟨capture c, mem_children_capture_iff.mpr ⟨c, Node.mem_children_of_child? hc, rfl⟩, ?_⟩
      have hbelow := ih hat (above ++ [(capture t).label])
      rwa [List.append_assoc, List.singleton_append, ← Node.labelsAlong_cons hc] at hbelow

end Snapshot

end CommandGrammar
