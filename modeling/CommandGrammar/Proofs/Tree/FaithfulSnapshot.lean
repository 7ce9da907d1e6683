import CommandGrammar.Proofs.Definition.Compiled
import CommandGrammar.Proofs.Text.ByteOrder
import CommandGrammar.Proofs.Tree.Built
import CommandGrammar.Proofs.Tree.Enumeration
import Mathlib.Data.Set.Card

/-!
# Snapshots are faithful

A tree answers for a name with the child that has it, a snapshot with the first one in its list that
does. Both find the same at every path, and a snapshot lists every node of the tree once, siblings
by name.
-/

namespace CommandGrammar

/-- A list without repetitions has as many entries as there are things in it. -/
theorem ncard_eq_length {α : Type} {P : α → Prop} {as : List α} (hnodup : as.Nodup)
    (hmem : ∀ a, a ∈ as ↔ P a) : {a | P a}.ncard = as.length := by
  classical
  have has : {a | P a} = (as.toFinset : Set α) := by
    ext a
    rw [Set.mem_ofPred_eq, ← hmem, List.coe_toFinset, Set.mem_ofPred_eq]
  rw [has, Set.ncard_coe_finset, List.toFinset_card_of_nodup hnodup]

namespace Node

variable {Source Value : Type}

/-! ### Places in a tree -/

mutual

/-- The paths to all nodes of a tree. -/
def places : Node Source Value → List (List String)
  | ⟨_, children⟩ => [] :: placesAll children

def placesAll : List (Node Source Value) → List (List String)
  | [] => []
  | c :: children => c.places.map (c.name :: ·) ++ placesAll children

end

theorem placesAll_eq_flatMap (cs : List (Node Source Value)) :
    placesAll cs = cs.flatMap fun c => c.places.map (c.name :: ·) := by
  induction cs with
  | nil => rfl
  | cons c cs ih => rw [placesAll, ih, List.flatMap_cons]

theorem sizes_eq_sum (cs : List (Node Source Value)) : sizes cs = (cs.map size).sum := by
  induction cs with
  | nil => rfl
  | cons c cs ih => rw [sizes, ih, List.map_cons, List.sum_cons]

theorem length_places (t : Node Source Value) : t.places.length = t.size := by
  induction t using inductionOnChildren with
  | node h children ih =>
      have hbelow : (children.map fun c => (c.places.map (c.name :: ·)).length)
          = children.map size := by
        apply List.map_congr_left
        intro c hc
        rw [List.length_map, ih c hc]
      rw [places, size, placesAll_eq_flatMap, sizes_eq_sum, List.length_cons, List.length_flatMap,
        hbelow, Nat.add_comm]

theorem mem_places_iff {t : Node Source Value} (ht : t.NamesDistinct) {path : List String} :
    path ∈ t.places ↔ ∃ n, t.at? path = some n := by
  induction ht generalizing path with
  | @node h children hnodup hchildren ih =>
      have ht : NamesDistinct ⟨h, children⟩ := .node hnodup hchildren
      rw [places, placesAll_eq_flatMap]
      cases path with
      | nil => simp [at?]
      | cons name path =>
          simp only [ht.at?_cons_eq_some_iff, List.mem_cons, reduceCtorEq, false_or,
            List.mem_flatMap, List.mem_map, List.cons.injEq]
          constructor
          · rintro ⟨c, hc, way, hway, rfl, rfl⟩
            obtain ⟨n, hat⟩ := (ih c hc).mp hway
            exact ⟨n, c, hc, rfl, hat⟩
          · rintro ⟨n, c, hc, rfl, hat⟩
            exact ⟨c, hc, path, (ih c hc).mpr ⟨n, hat⟩, rfl, rfl⟩

theorem nodup_places {t : Node Source Value} (ht : t.NamesDistinct) : t.places.Nodup := by
  induction ht with
  | @node h children hnodup _ ih =>
      rw [places, placesAll_eq_flatMap, List.nodup_cons, List.nodup_flatMap]
      refine ⟨?_, ?_, ?_⟩
      · simp
      · intro c hc
        exact (ih c hc).map List.cons_injective
      · -- the first name of a path tells below which child it leads
        refine (List.pairwise_map.mp hnodup).imp fun hne => ?_
        intro path hpath hpath'
        obtain ⟨way, -, rfl⟩ := List.mem_map.mp hpath
        obtain ⟨way', -, heq⟩ := List.mem_map.mp hpath'
        exact hne (List.cons.inj heq).1.symm

/-- The size of a tree is the number of paths that end in it. -/
theorem size_eq_ncard {t : Node Source Value} (ht : t.NamesDistinct) :
    t.size = {path | ∃ n, t.at? path = some n}.ncard := by
  rw [ncard_eq_length (nodup_places ht) fun path => mem_places_iff ht, length_places]

end Node

namespace Snapshot

variable {Source Value : Type}

/-! ### Snapshots of trees -/

theorem children_capture (n : Node Source Value) :
    (capture n).children = Text.sortByKey name (n.children.map capture) := by
  obtain ⟨h, children⟩ := n
  rw [capture, Node.captureAll_eq_map]

theorem names_map_capture (cs : List (Node Source Value)) :
    (cs.map capture).map name = cs.map Node.name := by
  rw [List.map_map]
  exact List.map_congr_left fun c _ => Node.name_capture c

theorem nodup_names_capture {n : Node Source Value} (hn : n.NamesDistinct) :
    ((n.children.map capture).map name).Nodup := by
  rw [names_map_capture]
  exact hn.nodup

theorem child?_capture {n : Node Source Value} (hn : n.NamesDistinct) (childName : String) :
    (capture n).child? childName = (n.child? childName).map capture := by
  rw [child?, children_capture, Text.find?_sortByKey (nodup_names_capture hn), List.find?_map]
  simp only [Function.comp_def, Node.name_capture, Node.child?]

/-- Looking up a path and taking the snapshot may change places. -/
theorem find?_capture {t : Node Source Value} (ht : t.NamesDistinct) (path : List String) :
    (capture t).find? path = (t.at? path).map capture := by
  induction path generalizing t with
  | nil => rfl
  | cons childName path ih =>
      rw [find?, child?_capture ht, Node.at?_cons]
      cases hc : t.child? childName with
      | none => rfl
      | some c => exact ih (ht.of_mem (Node.mem_children_of_child? hc))

theorem names_capture_ascending {n : Node Source Value} (hn : n.NamesDistinct) :
    ((capture n).children.map fun s => Text.utf8 s.name).Pairwise (· < ·) := by
  rw [children_capture, List.pairwise_map]
  exact (Text.sortByKey_pairwise_lt (nodup_names_capture hn)).imp Text.utf8_lt_of_lt

theorem names_capture_perm (n : Node Source Value) :
    ((capture n).children.map name).Perm (n.children.map Node.name) := by
  rw [children_capture, ← names_map_capture]
  exact (Text.sortByKey_perm name _).map name

theorem sizes_eq_sum (ss : List Snapshot) : sizes ss = (ss.map size).sum := by
  induction ss with
  | nil => rfl
  | cons s ss ih => rw [sizes, ih, List.map_cons, List.sum_cons]

theorem size_capture (t : Node Source Value) : (capture t).size = t.size := by
  induction t using Node.inductionOnChildren with
  | node h children ih =>
      have hbelow : (children.map capture).map size = children.map Node.size := by
        rw [List.map_map]
        exact List.map_congr_left ih
      have hperm := (Text.sortByKey_perm name (children.map capture)).map size
      rw [capture, Node.captureAll_eq_map, size, Node.size, sizes_eq_sum, hperm.sum_eq, hbelow,
        Node.sizes_eq_sum]

/-- **A snapshot is a faithful view.** Take any tree that was built, its definition compiled or not,
with the children of its nodes listed in any order. At each path its snapshot has what the snapshot
of the node there is, and nothing where there is no node. The children of every node ascend strictly
by the bytes of their names, with the names that the node has for its children, and as many nodes
are counted as there are paths to one. -/
theorem capture_faithful :
    (∀ {Source : Type} [PermissionSource Source] (d : NodeDefinition),
      (d.compile : Node Source ArgumentValue).Built)
    ∧ ∀ {Source Value : Type} {t t' : Node Source Value}, t.Built → Node.Reordered t t' →
      (∀ path s, (capture t').find? path = some s ↔ ∃ n, t'.at? path = some n ∧ s = capture n)
      ∧ (∀ path n, t'.at? path = some n →
        ((capture n).children.map fun s => Text.utf8 s.name).Pairwise (· < ·)
        ∧ ((capture n).children.map name).Perm (n.children.map Node.name))
      ∧ (capture t').size = t'.size
      ∧ t'.size = {path | ∃ n, t'.at? path = some n}.ncard := by
  refine ⟨fun d => NodeDefinition.built_compile d, ?_⟩
  intro Source Value t t' hbuilt hreordered
  have ht : t'.NamesDistinct := hbuilt.namesDistinct.of_reordered hreordered
  refine ⟨?_, ?_, size_capture t', Node.size_eq_ncard ht⟩
  · intro path s
    rw [find?_capture ht, Option.map_eq_some_iff]
    simp only [eq_comm]
  · intro path n hat
    exact ⟨names_capture_ascending (ht.of_at? hat), names_capture_perm n⟩

theorem built_keywordOver : (Node.keywordOver "a" "b").Built := by
  refine @Node.Built.build _ _ (.literal "x" true)
    [⟨.literal "a" true, []⟩, ⟨.literal "b" true, []⟩] fun c hc => ?_
  rcases List.mem_cons.mp hc with rfl | hc
  · exact Node.built_leaf _
  · obtain rfl := List.mem_singleton.mp hc
    exact Node.built_leaf _

/-- A keyword over `b` and `a`, listed in that order, has three nodes. Its snapshot lists `a` first
and still finds `b`, which the tree has, and nothing below it. -/
theorem capture_faithful_keywordOver :
    (Node.keywordOver "a" "b").Built
      ∧ Node.Reordered (Node.keywordOver "a" "b") (Node.keywordOver "b" "a")
      ∧ (capture (Node.keywordOver "b" "a")).children.map name = ["a", "b"]
      ∧ ((capture (Node.keywordOver "b" "a")).children.map
        fun s => Text.utf8 s.name).Pairwise (· < ·)
      ∧ (capture (Node.keywordOver "b" "a")).find? ["b"]
        = some (capture (⟨.literal "b" true, []⟩ : Node Unit ArgumentValue))
      ∧ (capture (Node.keywordOver "b" "a")).find? ["b", "a"] = none
      ∧ (capture (Node.keywordOver "b" "a")).size = 3
      ∧ {path | ∃ n, (Node.keywordOver "b" "a").at? path = some n}.ncard = 3 := by
  have hreordered := Node.reordered_keywordOver "a" "b"
  obtain ⟨hfind, hlevel, hsize, hcount⟩ := capture_faithful.2 built_keywordOver hreordered
  refine ⟨built_keywordOver, hreordered, by decide, (hlevel [] _ rfl).1, ?_, ?_, hsize, hcount.symm⟩
  · exact (hfind ["b"] _).mpr ⟨_, rfl, rfl⟩
  · cases hat : (capture (Node.keywordOver "b" "a")).find? ["b", "a"] with
    | none => rfl
    | some s =>
        obtain ⟨n, hn, -⟩ := (hfind ["b", "a"] s).mp hat
        cases hn

end Snapshot

end CommandGrammar
