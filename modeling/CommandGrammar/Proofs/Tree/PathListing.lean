import CommandGrammar.Proofs.Tree.FaithfulSnapshot
import CommandGrammar.Proofs.Tree.Paths

/-!
# Every executable node is listed once

A snapshot that was read from a text may have siblings of one name, so its nodes are told apart by
where they stand. Its listed paths are those of the nodes that run something, one for each, sorted,
and it does not matter in which order the children of a node are given.
-/

namespace CommandGrammar

namespace Snapshot

/-! ### Places in a snapshot -/

theorem inductionOnChildren {motive : Snapshot → Prop}
    (node : ∀ h children, (∀ c ∈ children, motive c) → motive ⟨h, children⟩) (s : Snapshot) :
    motive s := by
  cases s with
  | mk h children => exact node h children fun c _ => inductionOnChildren node c

/-- The node at a place, which is given by the numbers of the children on the way to it. -/
def nodeAt? (s : Snapshot) : List Nat → Option Snapshot
  | [] => some s
  | i :: place => s.children[i]?.bind fun c => c.nodeAt? place

def ExecutableAt (s : Snapshot) (place : List Nat) : Prop :=
  ∃ n, s.nodeAt? place = some n ∧ n.header.executable = true

mutual

/-- The places of all nodes that run something. -/
def executablePlaces : Snapshot → List (List Nat)
  | ⟨h, children⟩ => (if h.executable then [[]] else []) ++ executablePlacesFrom 0 children

def executablePlacesFrom : Nat → List Snapshot → List (List Nat)
  | _, [] => []
  | i, c :: children =>
    c.executablePlaces.map (i :: ·) ++ executablePlacesFrom (i + 1) children

end

theorem executablePlacesFrom_eq_flatMap (i : Nat) (cs : List Snapshot) :
    executablePlacesFrom i cs
      = (cs.zipIdx i).flatMap fun (c, j) => c.executablePlaces.map (j :: ·) := by
  induction cs generalizing i with
  | nil => rfl
  | cons c cs ih => rw [executablePlacesFrom, ih, List.zipIdx_cons, List.flatMap_cons]

theorem cons_notMem_ite (h : SnapshotHeader) (i : Nat) (place : List Nat) :
    i :: place ∉ (if h.executable then [[]] else []) := by
  split <;> simp

theorem mem_executablePlaces_iff {s : Snapshot} {place : List Nat} :
    place ∈ s.executablePlaces ↔ s.ExecutableAt place := by
  induction s using inductionOnChildren generalizing place with
  | node h children ih =>
      rw [executablePlaces, executablePlacesFrom_eq_flatMap]
      cases place with
      | nil => by_cases hexec : h.executable = true <;> simp [ExecutableAt, nodeAt?, hexec]
      | cons i place =>
          simp only [List.mem_append, cons_notMem_ite h i place, false_or, List.mem_flatMap, Prod.exists,
            List.mem_zipIdx_iff_getElem?, List.mem_map, List.cons.injEq, ExecutableAt, nodeAt?,
            Option.bind_eq_some_iff]
          constructor
          · rintro ⟨c, _, hc, way, hway, rfl, rfl⟩
            obtain ⟨n, hat, hexec⟩ := (ih c (List.mem_of_getElem? hc)).mp hway
            exact ⟨n, ⟨c, hc, hat⟩, hexec⟩
          · rintro ⟨n, ⟨c, hc, hat⟩, hexec⟩
            have hway := (ih c (List.mem_of_getElem? hc)).mpr ⟨n, hat, hexec⟩
            exact ⟨c, i, hc, place, hway, rfl, rfl⟩

theorem nodup_executablePlaces (s : Snapshot) : s.executablePlaces.Nodup := by
  induction s using inductionOnChildren with
  | node h children ih =>
      have hhere : (if h.executable then [[]] else [] : List (List Nat)).Nodup := by
        split <;> simp
      have hnumbers : (children.zipIdx.map Prod.snd).Nodup := by
        rw [List.zipIdx_map_snd]
        exact List.nodup_range' 1
      rw [executablePlaces, executablePlacesFrom_eq_flatMap, List.nodup_append, List.nodup_flatMap]
      refine ⟨hhere, ⟨fun child hchild => ?_, ?_⟩, ?_⟩
      · exact (ih _ (List.fst_mem_of_mem_zipIdx hchild)).map List.cons_injective
      · -- the first number of a place tells below which child it is
        refine (List.pairwise_map.mp hnumbers).imp fun hne place hplace hplace' => ?_
        obtain ⟨way, -, rfl⟩ := List.mem_map.mp hplace
        obtain ⟨way', -, heq⟩ := List.mem_map.mp hplace'
        exact hne (List.cons.inj heq).1.symm
      · rintro place hplace _ hbelow rfl
        obtain ⟨child, -, hmem⟩ := List.mem_flatMap.mp hbelow
        obtain ⟨way, -, rfl⟩ := List.mem_map.mp hmem
        exact cons_notMem_ite h _ way hplace

/-! ### Paths of places -/

/-- The nodes on the way to a place, the root and the node there included. -/
def nodesTo (s : Snapshot) (place : List Nat) : List Snapshot := place.inits.filterMap s.nodeAt?

theorem nodesTo_cons {s c : Snapshot} {i : Nat} (hc : s.children[i]? = some c) (place : List Nat) :
    s.nodesTo (i :: place) = s :: c.nodesTo place := by
  have hroot : s.nodeAt? [] = some s := rfl
  have hbelow : ∀ way, s.nodeAt? (i :: way) = c.nodeAt? way := fun way => by
    rw [nodeAt?, hc, Option.bind_some]
  rw [nodesTo, List.inits_cons, List.filterMap_cons_some hroot, List.filterMap_map, nodesTo]
  exact congrArg _ (List.filterMap_congr fun way _ => hbelow way)

/-- How a node is written in a path. -/
def written (s : Snapshot) : String :=
  match s.header.kind with
  | .literal => s.name
  | .argument => "<" ++ s.name ++ ">"

theorem toList_written (s : Snapshot) : s.written.toList = s.label := by
  rw [written, label]
  cases s.header.kind with
  | literal => rfl
  | argument => simp

def pathTo (s : Snapshot) (place : List Nat) : String :=
  " ".intercalate ((s.nodesTo place).map written)

theorem pathTo_eq (s : Snapshot) (place : List Nat) :
    s.pathTo place = String.ofList (joinLabels ((s.nodesTo place).map label)) := by
  have hlabels : (s.nodesTo place).map label
      = ((s.nodesTo place).map written).map String.toList := by
    rw [List.map_map]
    exact List.map_congr_left fun n _ => n.toList_written.symm
  rw [← String.toList_inj, pathTo, String.toList_intercalate, hlabels]
  exact String.toList_ofList.symm

theorem labelPaths_eq_map (above : List (List Char)) (s : Snapshot) :
    labelPaths above s
      = s.executablePlaces.map fun place => above ++ (s.nodesTo place).map label := by
  induction s using inductionOnChildren generalizing above with
  | node h children ih =>
      have hnumbered : ∀ here, children.flatMap (labelPaths here)
          = children.zipIdx.flatMap fun child => labelPaths here child.1 := fun here => by
        conv_lhs => rw [← List.zipIdx_map_fst 0 children, List.flatMap_map]
      rw [labelPaths, executablePlaces, labelPathsAll_eq_flatMap, executablePlacesFrom_eq_flatMap,
        List.map_append, List.map_flatMap, hnumbered]
      congr 1
      · split <;> rfl
      · refine List.flatMap_congr fun child hchild => ?_
        obtain ⟨c, i⟩ := child
        have hc : children[i]? = some c := List.mem_zipIdx_iff_getElem?.mp hchild
        rw [ih c (List.mem_of_getElem? hc), List.map_map]
        refine List.map_congr_left fun place _ => ?_
        rw [Function.comp_apply, nodesTo_cons (s := ⟨h, children⟩) hc, List.map_cons,
          List.append_assoc, List.singleton_append]

theorem texts_labelPaths (s : Snapshot) :
    texts (s.labelPaths []) = s.executablePlaces.map s.pathTo := by
  rw [labelPaths_eq_map, texts, List.map_map]
  exact List.map_congr_left fun place _ => (s.pathTo_eq place).symm

theorem paths_perm (s : Snapshot) : s.paths.Perm (s.executablePlaces.map s.pathTo) :=
  s.texts_labelPaths ▸ s.paths_perm_texts

theorem paths_ascending (s : Snapshot) : (s.paths.map Text.utf8).Pairwise (· ≤ ·) := by
  refine List.pairwise_map.mpr (s.paths_sorted.imp fun {a b} hle => ?_)
  exact not_lt.mpr hle ∘ Text.utf8_lt_iff.mp

theorem length_paths (s : Snapshot) : s.paths.length = {place | s.ExecutableAt place}.ncard := by
  rw [ncard_eq_length s.nodup_executablePlaces fun place => mem_executablePlaces_iff,
    (paths_perm s).length_eq, List.length_map]

end Snapshot

/-! ### One list of labels in hand -/

/-- What a walk through a snapshot has in hand: the labels from the root to the node it is at, and
the paths found so far. -/
structure PathWalk where
  labels : List (List Char)
  found : List String

namespace PathWalk

def enter (w : PathWalk) (label : List Char) : PathWalk := { w with labels := w.labels ++ [label] }

def note (w : PathWalk) : PathWalk :=
  { w with found := w.found ++ [String.ofList (Snapshot.joinLabels w.labels)] }

def leave (w : PathWalk) : PathWalk := { w with labels := w.labels.dropLast }

end PathWalk

namespace Snapshot

mutual

/-- The walk that adds the label of a node on its way down and drops it on its way up. -/
def walk : Snapshot → PathWalk → PathWalk
  | ⟨h, children⟩, w =>
    let entered := w.enter (label ⟨h, children⟩)
    (walkAll children (if h.executable then entered.note else entered)).leave

def walkAll : List Snapshot → PathWalk → PathWalk
  | [], w => w
  | c :: children, w => walkAll children (c.walk w)

end

mutual

theorem walk_eq : ∀ (s : Snapshot) (w : PathWalk),
    s.walk w = ⟨w.labels, w.found ++ texts (labelPaths w.labels s)⟩
  | ⟨h, children⟩, w => by
    rw [walk, walkAll_eq, labelPaths]
    -- the children leave the labels as they were, so the one that is dropped is the node's own
    cases h.executable with
    | false => simp [PathWalk.enter, PathWalk.leave]
    | true => simp [PathWalk.enter, PathWalk.leave, PathWalk.note, texts]

theorem walkAll_eq : ∀ (cs : List Snapshot) (w : PathWalk),
    walkAll cs w = ⟨w.labels, w.found ++ texts (labelPathsAll w.labels cs)⟩
  | [], w => by
    rw [walkAll, labelPathsAll, texts, List.map_nil, List.append_nil]
  | c :: cs, w => by
    rw [walkAll, walk_eq, walkAll_eq, labelPathsAll]
    simp only [texts, List.map_append, List.append_assoc]

end

/-! ### Children in another order -/

/-- The same snapshot with the children of any node in another order. -/
inductive Reordered : Snapshot → Snapshot → Prop where
  | node {h : SnapshotHeader} {cs ms ds : List Snapshot} (hbelow : List.Forall₂ Reordered cs ms)
      (horder : ms.Perm ds) : Reordered ⟨h, cs⟩ ⟨h, ds⟩

theorem labelPathsAll_perm {above : List (List Char)} {cs ms ds : List Snapshot}
    (hcs : ∀ c ∈ cs, ∀ m, Reordered c m → (labelPaths above c).Perm (labelPaths above m))
    (hbelow : List.Forall₂ Reordered cs ms) (horder : ms.Perm ds) :
    (labelPathsAll above cs).Perm (labelPathsAll above ds) := by
  have hsame : (labelPathsAll above cs).Perm (labelPathsAll above ms) := by
    clear horder
    induction hbelow with
    | nil => exact .refl _
    | @cons c m cs ms hcm _ ih =>
        have hrest := ih fun c hc => hcs c (List.mem_cons_of_mem _ hc)
        exact (hcs c List.mem_cons_self m hcm).append hrest
  refine hsame.trans ?_
  rw [labelPathsAll_eq_flatMap, labelPathsAll_eq_flatMap]
  exact horder.flatMap_right _

theorem labelPaths_perm_of_reordered {s s' : Snapshot} (h : Reordered s s')
    (above : List (List Char)) : (labelPaths above s).Perm (labelPaths above s') := by
  induction s using inductionOnChildren generalizing s' above with
  | node header cs ih =>
      cases h with
      | @node _ _ ms ds hbelow horder =>
          rw [labelPaths, labelPaths]
          exact (labelPathsAll_perm (fun c hc m hcm => ih c hc hcm _) hbelow horder).append_left _

theorem paths_eq_of_reordered {s s' : Snapshot} (h : Reordered s s') : s.paths = s'.paths := by
  have htexts : (texts (s.labelPaths [])).Perm (texts (s'.labelPaths [])) :=
    (labelPaths_perm_of_reordered h []).map _
  have hpaths : s.paths.Perm s'.paths :=
    s.paths_perm_texts.trans (htexts.trans s'.paths_perm_texts.symm)
  exact hpaths.eq_of_pairwise (fun _ _ _ _ => le_antisymm) s.paths_sorted s'.paths_sorted

/-- **Every executable node is listed once, sorted.** The listed paths of any snapshot ascend by
their bytes. They are the paths of the places at which a node stands that runs something, each as
often as there are such places with that path. A walk with one list of labels in hand finds them and
ends with the labels it started with. In whatever order the children of the nodes are given, the same
paths are listed. -/
theorem paths_exact :
    (∀ s : Snapshot, (s.paths.map Text.utf8).Pairwise (· ≤ ·)
      ∧ (∃ places : List (List Nat), places.Nodup ∧ (∀ place, place ∈ places ↔ s.ExecutableAt place)
        ∧ s.paths.Perm (places.map s.pathTo))
      ∧ s.paths.length = {place | s.ExecutableAt place}.ncard
      ∧ (∀ w, (s.walk w).labels = w.labels)
      ∧ Text.sort (s.walk ⟨[], []⟩).found = s.paths)
    ∧ ∀ s s' : Snapshot, Reordered s s' → s.paths = s'.paths := by
  constructor
  · intro s
    refine ⟨paths_ascending s, ?_, length_paths s, ?_, ?_⟩
    · refine ⟨s.executablePlaces, nodup_executablePlaces s, ?_, paths_perm s⟩
      exact fun _ => mem_executablePlaces_iff
    · intro w
      rw [walk_eq]
    · rw [walk_eq, List.nil_append]
      rfl
  · intro s s'
    exact paths_eq_of_reordered

/-- An executable node without children. -/
def executableLeaf (name : String) (kind : SnapshotKind) : Snapshot :=
  ⟨⟨name, kind, none, none, true, false⟩, []⟩

/-- A keyword that runs nothing over the given nodes. -/
def overTime (children : List Snapshot) : Snapshot :=
  ⟨⟨"time", .literal, none, none, false, false⟩, children⟩

def setTwice : Snapshot :=
  overTime [executableLeaf "set" .literal, executableLeaf "day" .argument,
    executableLeaf "set" .literal]

def setTwiceLater : Snapshot :=
  overTime [executableLeaf "day" .argument, executableLeaf "set" .literal,
    executableLeaf "set" .literal]

theorem reordered_setTwice : Reordered setTwice setTwiceLater := by
  have hleaf : ∀ name kind, Reordered (executableLeaf name kind) (executableLeaf name kind) :=
    fun _ _ => .node .nil .nil
  exact .node (.cons (hleaf _ _) (.cons (hleaf _ _) (.cons (hleaf _ _) .nil))) (.swap _ _ _)

/-- Two children of one name give two entries, and an argument in front of them goes first. -/
theorem paths_exact_setTwice :
    Reordered setTwice setTwiceLater
      ∧ setTwice.paths = setTwiceLater.paths
      ∧ setTwice.paths = ["time <day>", "time set", "time set"]
      ∧ {place | setTwice.ExecutableAt place}.ncard = 3 := by
  have hpaths : setTwice.paths = ["time <day>", "time set", "time set"] := by decide +kernel
  refine ⟨reordered_setTwice, paths_exact.2 _ _ reordered_setTwice, hpaths, ?_⟩
  obtain ⟨-, -, hlength, -⟩ := paths_exact.1 setTwice
  rw [← hlength, hpaths]
  rfl

end Snapshot

end CommandGrammar
